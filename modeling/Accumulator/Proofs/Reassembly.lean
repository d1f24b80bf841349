/-
  Accumulator/Proofs/Reassembly.lean
  ==================================
  **Instructions written as program text and assembled again.**

  The text of an instruction shows its target as a position, which is no name of program
  text.  Put a label in front of every instruction and at the end, named after the
  position where it stands, and show targets by these names:

      label L0000.h
      setRegister 1 -5
      label L0001.h
      jump L0000.h
      label L0002.h

  Such a text (`sourceLines`) is assembled to the instructions it was written from, with
  no data and with these labels (`exists_assemble_source`).  Each mnemonic leads to the
  form of its instruction, each operand denotes its own value
  (`denotes_textWith`), and the name of a position is bound to it, so the
  operations of the text have the instructions as their meanings.

  Reserved instructions have no mnemonic, and literal references are shown as offsets;
  the other instructions can be written (`Instr.Writable`).  The same argument, with
  positions as names of themselves, shows that no two of them have the same text
  (`eq_of_text_eq`).
-/
import Accumulator.Proofs.Written

namespace Accumulator

/-! ### Names for positions -/

/-- The name of the label at a position. -/
def posName (pos : Pos) : String := "L" ++ posText pos

theorem digitChar_injective {m n : Nat} (hm : m < 16) (hn : n < 16)
    (h : m.digitChar = n.digitChar) : m = n := by
  have hall : ∀ m n : Fin 16, Nat.digitChar m = Nat.digitChar n → m = n := by decide
  exact congrArg Fin.val (hall ⟨m, hm⟩ ⟨n, hn⟩ h)

theorem Hex.word_injective {v w : UInt16} (h : Hex.word v = Hex.word w) : v = w := by
  have hdigit : ∀ {m n : Nat}, Hex.digit m = Hex.digit n → m % 16 = n % 16 := fun h =>
    digitChar_injective (Nat.mod_lt _ (by decide)) (Nat.mod_lt _ (by decide)) h
  simp only [Hex.word, List.cons.injEq, and_true] at h
  obtain ⟨h₁, h₂, h₃, h₄⟩ := h
  have hv := v.toNat_lt
  have hw := w.toNat_lt
  have := hdigit h₁
  have := hdigit h₂
  have := hdigit h₃
  have := hdigit h₄
  apply UInt16.toNat_inj.mp
  omega

theorem posText_injective {pos pos' : Pos} (h : posText pos = posText pos') : pos = pos' := by
  have hdigits : String.ofList (Hex.word pos) = String.ofList (Hex.word pos') :=
    (String.append_left_inj _).mp h
  exact Hex.word_injective (String.ofList_injective hdigits)

theorem posName_injective {pos pos' : Pos} (h : posName pos = posName pos') : pos = pos' :=
  posText_injective ((String.append_right_inj _).mp h)

/-! ### Instructions that can be written -/

namespace Instr

/-- Neither reserved nor with a reference to a literal. -/
def Writable (i : Instr) : Prop := (∀ op, i ≠ .reserved op) ∧ ∀ data, i ≠ .copyCodeMemory data

/-- The mnemonic of an instruction leads to a form that makes the instruction of its
operands. -/
theorem Writable.exists_form {i : Instr} (h : i.Writable) :
    ∃ form, Form.ofMnemonic? i.mnemonic = some form ∧ form.Makes i.operands i := by
  cases i with
  | reserved op => exact absurd rfl (h.1 op)
  | copyCodeMemory data => exact absurd rfl (h.2 data)
  | nop | halt | ret | increment | decrement | push | pop => exact ⟨_, rfl, .plain _⟩
  | jump | jumpNonzero | jumpZero | jumpLess | jumpGreater | jumpLessEqual
  | jumpGreaterEqual | call => exact ⟨_, rfl, .target _ _⟩
  | set => exact ⟨_, rfl, .immediate _ _⟩
  | setRegister => exact ⟨_, rfl, .registerImmediate _ _ _⟩
  | swap | incrementRegister | decrementRegister | add | sub | div | compare | write8
  | deref8 | deref32 | pushRegister | popRegister => exact ⟨_, rfl, .register _ _⟩
  | store8 | store32 | load8 | load32 => exact ⟨_, rfl, .address _ _⟩
  | syscall => exact ⟨_, rfl, .number _ _⟩

theorem target?_of_mem {i : Instr} {pos : Pos} (h : .target pos ∈ i.operands) :
    i.target? = some pos := by
  cases i <;> simp [operands] at h <;> simp [target?, h]

theorem eq_copyCodeMemory_of_mem {i : Instr} {data : DataRef} (h : .literal data ∈ i.operands) :
    i = .copyCodeMemory data := by
  cases i <;> simp [operands] at h
  rw [h]

theorem eq_reserved_of_mem {i : Instr} {byte : UInt8} (h : .opcode byte ∈ i.operands) :
    i = .reserved byte := by
  cases i <;> simp [operands] at h
  rw [h]

end Instr

/-- An operand in program text that names positions in this way. -/
def Operand.textWith (name : Pos → String) : Operand → String
  | .target pos => name pos
  | operand => operand.text

/-- An instruction in program text that names positions in this way. -/
def Instr.textWith (name : Pos → String) (i : Instr) : String :=
  String.intercalate " " (i.mnemonic :: i.operands.map (Operand.textWith name))

theorem Operand.textWith_posText : Operand.textWith posText = Operand.text := by
  funext operand
  cases operand <;> rfl

theorem Instr.textWith_posText (i : Instr) : i.textWith posText = i.text := by
  rw [textWith, Operand.textWith_posText, text]

end Accumulator

namespace Accumulator.Assembly

/-! ### Operands come back -/

section Operands

variable {binds : String → Label → Prop}

theorem denotes_immediate (val : Int32) :
    Denotes binds (Operand.text (.immediate val)) (.immediate val) := by
  have hleast := val.le_toInt
  have hgreatest := val.toInt_lt
  refine .immediate (numeric_iff.mpr ⟨Numeral.spells_toString val.toInt, ?_, ?_⟩) val.ofInt_toInt
  · simp only [NumericKind.least]
    omega
  · simp only [NumericKind.greatest]
    omega

theorem numeric_toString {kind : NumericKind} {n : Nat} (hleast : kind.least = 0)
    (hgreatest : (n : Int) ≤ kind.greatest) : Numeric kind (toString n) n :=
  numeric_iff.mpr ⟨Numeral.spells_toString_nat n, by omega, hgreatest⟩

theorem denotes_register (idx : RegIndex) :
    Denotes binds (Operand.text (.register idx)) (.register idx) := by
  have hlt := idx.toNat_lt
  refine .register (numeric_toString rfl ?_) (by simp)
  simp only [NumericKind.greatest]
  omega

theorem denotes_address (addr : UInt32) :
    Denotes binds (Operand.text (.address addr)) (.address addr) := by
  have hlt := addr.toNat_lt
  refine .address (numeric_toString rfl ?_) (by simp)
  simp only [NumericKind.greatest]
  omega

theorem denotes_number (no : UInt8) :
    Denotes binds (Operand.text (.number no)) (.number no) := by
  have hlt := no.toNat_lt
  refine .number (numeric_toString rfl ?_) (by simp)
  simp only [NumericKind.greatest]
  omega

/-- **Operands come back.**  An operand of an instruction that can be written denotes itself, if
the name of its position is bound to it. -/
theorem denotes_textWith {name : Pos → String} {i : Instr} (hi : i.Writable)
    (hname : ∀ pos, i.target? = some pos → binds (name pos) (.code pos)) {operand : Operand}
    (h : operand ∈ i.operands) : Denotes binds (operand.textWith name) operand := by
  cases operand with
  | target pos => exact .target (hname pos (Instr.target?_of_mem h))
  | immediate val => exact denotes_immediate val
  | register idx => exact denotes_register idx
  | address addr => exact denotes_address addr
  | number no => exact denotes_number no
  | literal data => exact absurd (Instr.eq_copyCodeMemory_of_mem h) (hi.2 data)
  | opcode byte => exact absurd (Instr.eq_reserved_of_mem h) (hi.1 byte)

/-- The words that an instruction is written with mean the instruction. -/
theorem translates_textWith {name : Pos → String} {i : Instr} (hi : i.Writable)
    (hname : ∀ pos, i.target? = some pos → binds (name pos) (.code pos)) :
    Translates binds (i.mnemonic, i.operands.map (Operand.textWith name)) i := by
  obtain ⟨form, hform, hmakes⟩ := hi.exists_form
  refine ⟨form, i.operands, hform, hmakes, ?_⟩
  rw [List.forall₂_map_left_iff, List.forall₂_same]
  exact fun operand h => denotes_textWith hi hname h

theorem Denotes.isPlain {x : String} {operand : Operand} (h : Denotes binds x operand)
    (hname : ∀ label, binds x label → IsPlain x.toList) : IsPlain x.toList := by
  cases h with
  | target hx => exact hname _ hx
  | literal hx => exact hname _ hx
  | immediate hx | register hx | address hx | number hx => exact (numeric_iff.mp hx).1.isPlain

end Operands

/-! ### Texts of instructions -/

theorem isPlain_digitChar {d : Nat} (h : d < 16) : IsPlain [d.digitChar] := by
  have hall : ∀ d : Fin 16, IsPlain [Nat.digitChar d] := by decide
  exact hall ⟨d, h⟩

theorem isPlain_hexDigit (n : Nat) : IsPlain [Hex.digit n] :=
  isPlain_digitChar (Nat.mod_lt _ (by decide))

theorem isPlain_hexWord (w : UInt16) : IsPlain (Hex.word w) := by
  refine isPlain_of_forall (by simp [Hex.word]) ?_
  simp [Hex.word, isPlain_hexDigit]

theorem isPlain_posText (pos : Pos) : IsPlain (posText pos).toList := by
  have hsuffix : IsPlain ".h".toList := by decide
  rw [posText, String.toList_append, String.toList_ofList]
  exact (isPlain_hexWord pos).append hsuffix

theorem isPlain_posName (pos : Pos) : IsPlain (posName pos).toList := by
  have hletter : IsPlain "L".toList := by decide
  rw [posName, String.toList_append]
  exact hletter.append (isPlain_posText pos)

section Names

variable {name : Pos → String}

/-- A name stands for the position that it is the name of. -/
def Named (name : Pos → String) (x : String) (label : Label) : Prop :=
  ∃ pos, name pos = x ∧ label = .code pos

theorem isPlain_textWith (hplain : ∀ pos, IsPlain (name pos).toList) {i : Instr}
    (hi : i.Writable) {operand : Operand} (h : operand ∈ i.operands) :
    IsPlain (operand.textWith name).toList := by
  have hdenotes : Denotes (Named name) (operand.textWith name) operand :=
    denotes_textWith hi (fun pos _ => ⟨pos, rfl, rfl⟩) h
  refine hdenotes.isPlain ?_
  rintro label ⟨pos, hpos, -⟩
  rw [← hpos]
  exact hplain pos

theorem toList_textWith (i : Instr) :
    (i.textWith name).toList =
      (Statement.op i.mnemonic (i.operands.map (Operand.textWith name))).written := by
  rw [Instr.textWith, String.toList_intercalate]
  rfl

theorem printable_textWith (hplain : ∀ pos, IsPlain (name pos).toList) {i : Instr}
    (hi : i.Writable) :
    (Statement.op i.mnemonic (i.operands.map (Operand.textWith name))).Printable := by
  refine printable_mnemonic i ?_
  intro x hx
  obtain ⟨operand, hoperand, rfl⟩ := List.mem_map.mp hx
  exact isPlain_textWith hplain hi hoperand

/-- **Texts tell instructions apart**, if names tell positions apart. -/
theorem eq_of_textWith_eq (hplain : ∀ pos, IsPlain (name pos).toList)
    (hinj : ∀ pos pos', name pos = name pos' → pos = pos') {i j : Instr} (hi : i.Writable)
    (hj : j.Writable) (h : i.textWith name = j.textWith name) : i = j := by
  have hwords : i.mnemonic = j.mnemonic ∧
      i.operands.map (Operand.textWith name) = j.operands.map (Operand.textWith name) := by
    refine Statement.op.inj ((printable_textWith hplain hi).eq (printable_textWith hplain hj) ?_)
    rw [← toList_textWith, ← toList_textWith, h]
  have htranslates : ∀ k : Instr, k.Writable → Translates (Named name)
      (k.mnemonic, k.operands.map (Operand.textWith name)) k :=
    fun k hk => translates_textWith hk fun pos _ => ⟨pos, rfl, rfl⟩
  have hunique : ∀ x label label', Named name x label → Named name x label' →
      label = label' := by
    rintro x _ _ ⟨pos, rfl, rfl⟩ ⟨pos', heq, rfl⟩
    rw [hinj pos' pos heq]
  have hmeaning := htranslates j hj
  rw [← hwords.1, ← hwords.2] at hmeaning
  exact (htranslates i hi).eq hunique hmeaning

end Names

theorem eq_of_text_eq {i j : Instr} (hi : i.Writable) (hj : j.Writable) (h : i.text = j.text) :
    i = j := by
  rw [← Instr.textWith_posText, ← Instr.textWith_posText] at h
  exact eq_of_textWith_eq isPlain_posText (fun _ _ => posText_injective) hi hj h

/-! ### Program text with a label at every position -/

def labelLine (k : Nat) : List Char := ("label " ++ posName (UInt16.ofNat k)).toList

/-- A label line for each position, and behind it the instruction that stands there. -/
def sourceLines (code : List Instr) : List (List Char) :=
  (code.zipIdx.flatMap fun entry => [labelLine entry.2, (entry.1.textWith posName).toList]) ++
    [labelLine code.length]

/-- The statements of the two lines for an instruction. -/
def labelled (entry : Instr × Nat) : List Statement :=
  [.label (posName (UInt16.ofNat entry.2)),
    .op entry.1.mnemonic (entry.1.operands.map (Operand.textWith posName))]

def sourceStatements (code : List Instr) : List Statement :=
  code.zipIdx.flatMap labelled ++ [.label (posName (UInt16.ofNat code.length))]

theorem written_label (k : Nat) :
    (Statement.label (posName (UInt16.ofNat k))).written = labelLine k := by
  simp [Statement.written, labelLine, labelKeyword, Text.spaced_cons]

theorem sourceLines_eq (code : List Instr) :
    sourceLines code = (sourceStatements code).map Statement.written := by
  simp only [sourceLines, sourceStatements, labelled, List.map_append, List.map_flatMap,
    List.map_cons, List.map_nil, written_label, toList_textWith]

theorem printable_label (pos : Pos) : (Statement.label (posName pos)).Printable := by
  refine .label (isPlain_posName pos) ?_
  intro c hc
  obtain rfl : 'L' = c := by simpa [posName] using hc
  decide

theorem printable_sourceStatements {code : List Instr} (h : ∀ i ∈ code, i.Writable) :
    ∀ s ∈ sourceStatements code, s.Printable := by
  intro s hs
  rcases List.mem_append.mp hs with hs | hs
  · obtain ⟨⟨i, k⟩, hentry, hs⟩ := List.mem_flatMap.mp hs
    have hi : i ∈ code := List.fst_mem_of_mem_zipIdx hentry
    rcases List.mem_pair.mp hs with rfl | rfl
    · exact printable_label _
    · exact printable_textWith isPlain_posName (h i hi)
  · rw [List.mem_singleton.mp hs]
    exact printable_label _

/-! ### What the text says -/

theorem filterMap_labelled {α : Type} {f : Statement → Option α} {g : Instr × Nat → α}
    (h : ∀ entry, (labelled entry).filterMap f = [g entry]) (entries : List (Instr × Nat)) :
    (entries.flatMap labelled).filterMap f = entries.map g := by
  rw [List.filterMap_flatMap, List.map_eq_flatMap]
  simp only [h]

theorem operations_labelled (code : List Instr) :
    (code.zipIdx.flatMap labelled).filterMap Statement.operation? =
      code.map fun i => (i.mnemonic, i.operands.map (Operand.textWith posName)) := by
  rw [filterMap_labelled fun _ => rfl]
  conv_rhs => rw [← List.zipIdx_map_fst 0 code, List.map_map]
  rfl

theorem names_labelled (code : List Instr) :
    (code.zipIdx.flatMap labelled).filterMap Statement.name? =
      (List.range code.length).map fun k => posName (UInt16.ofNat k) := by
  rw [filterMap_labelled fun _ => rfl, List.range_eq_range', ← List.zipIdx_map_snd 0 code,
    List.map_map]
  rfl

section Source

variable {code : List Instr}

theorem operations_source (n : Nat) :
    operations (numbered n (sourceStatements code)) =
      code.map fun i => (i.mnemonic, i.operands.map (Operand.textWith posName)) := by
  rw [operations_numbered, sourceStatements, List.filterMap_append, operations_labelled]
  simp [Statement.operation?]

theorem labelNames_source (n : Nat) :
    labelNames (numbered n (sourceStatements code)) =
      (List.range (code.length + 1)).map fun k => posName (UInt16.ofNat k) := by
  rw [labelNames_numbered, sourceStatements, List.filterMap_append, names_labelled,
    List.range_succ, List.map_append]
  rfl

theorem dataBytes_source (n : Nat) : dataBytes (numbered n (sourceStatements code)) = [] := by
  have hlabelled : ∀ entry, (labelled entry).filterMap Statement.text? = [] := fun _ => rfl
  have hnone : (sourceStatements code).filterMap Statement.text? = [] := by
    rw [sourceStatements, List.filterMap_append, List.filterMap_flatMap]
    simp [hlabelled, Statement.text?]
  rw [dataBytes_numbered, hnone]
  rfl

theorem toNat_ofNat_of_le {k : Nat} (hk : k ≤ code.length)
    (hlength : code.length ≤ codeSegmentMax) : (UInt16.ofNat k).toNat = k :=
  UInt16.toNat_ofNat_of_lt' (Nat.lt_succ_of_le (Nat.le_trans hk hlength))

theorem nodup_names (hlength : code.length ≤ codeSegmentMax) :
    ((List.range (code.length + 1)).map fun k => posName (UInt16.ofNat k)).Nodup := by
  refine List.Nodup.map_on ?_ List.nodup_range
  intro k hk k' hk' heq
  have hk := toNat_ofNat_of_le (Nat.le_of_lt_succ (List.mem_range.mp hk)) hlength
  have hk' := toNat_ofNat_of_le (Nat.le_of_lt_succ (List.mem_range.mp hk')) hlength
  rw [← hk, ← hk', posName_injective heq]

/-- The name of a position is bound to the position. -/
theorem binds_source (hlength : code.length ≤ codeSegmentMax) {k : Nat} (hk : k ≤ code.length)
    (n : Nat) :
    Binds (numbered n (sourceStatements code)) (posName (UInt16.ofNat k))
      (.code (UInt16.ofNat k)) := by
  have hpos := toNat_ofNat_of_le hk hlength
  rcases Nat.lt_or_eq_of_le hk with hlt | rfl
  · obtain ⟨front, i, back, rfl, rfl⟩ :
        ∃ front i back, code = front ++ i :: back ∧ front.length = k :=
      ⟨code.take k, code[k], code.drop (k + 1), by simp, by simpa using hk⟩
    have hsplit : sourceStatements (front ++ i :: back) = front.zipIdx.flatMap labelled ++
        .label (posName (UInt16.ofNat front.length)) ::
          .op i.mnemonic (i.operands.map (Operand.textWith posName)) ::
            ((back.zipIdx (front.length + 1)).flatMap labelled ++
              [.label (posName (UInt16.ofNat (front ++ i :: back).length))]) := by
      rw [sourceStatements, List.zipIdx_append, List.flatMap_append, List.append_assoc,
        Nat.zero_add, List.zipIdx_cons, List.flatMap_cons]
      rfl
    rw [hsplit]
    refine binds_operation ?_
    rw [operations_labelled, List.length_map, hpos]
  · refine binds_finish ?_
    rw [operations_labelled, List.length_map, hpos]

/-- **The text is assembled to its instructions.** -/
theorem exists_assemble_source {source : String} (hlength : code.length ≤ codeSegmentMax)
    (hwritable : ∀ i ∈ code, i.Writable)
    (htarget : ∀ i ∈ code, ∀ pos, i.target? = some pos → pos.toNat ≤ code.length)
    (hsource : Text.Writes source.toList (sourceLines code)) :
    ∃ p, Program.assemble source = .ok p ∧ p.code.toList = code ∧ p.data = {} ∧
      p.labels.toList.Perm ((List.range (code.length + 1)).map fun k =>
        (posName (UInt16.ofNat k), .code (UInt16.ofNat k))) := by
  rw [sourceLines_eq] at hsource
  have hstmts := statements_of_writes hsource (printable_sourceStatements hwritable)
  have hbinds := fun k (hk : k ≤ code.length) => binds_source hlength hk 1
  have hcode : List.Forall₂ (Translates (Binds (numbered 1 (sourceStatements code))))
      (operations (numbered 1 (sourceStatements code))) code := by
    rw [operations_source, List.forall₂_map_left_iff, List.forall₂_same]
    intro i hi
    refine translates_textWith (hwritable i hi) ?_
    intro pos hpos
    simpa using hbinds pos.toNat (htarget i hi pos hpos)
  have hnodup : (labelNames (numbered 1 (sourceStatements code))).Nodup := by
    rw [labelNames_source]
    exact nodup_names hlength
  obtain ⟨p, hp, hassembled, hpcode⟩ := exists_assembleStatements hnodup
    (by rwa [operations_source, List.length_map]) (by simp [dataBytes_source]) hcode
  refine ⟨p, Outcome.bind_eq_ok_iff.mpr ⟨_, hstmts, hp⟩, hpcode, ?_, ?_⟩
  · have hbytes := hassembled.data_eq
    rw [dataBytes_source, Array.toList_eq_nil_iff] at hbytes
    exact congrArg DataSegment.mk hbytes
  · refine hassembled.labels_perm hnodup ?_ ?_
    · rw [labelNames_source, List.map_map]
      rfl
    · intro entry hentry
      obtain ⟨k, hk, rfl⟩ := List.mem_map.mp hentry
      exact hbinds k (Nat.le_of_lt_succ (List.mem_range.mp hk))

end Source

/-- **Instruction texts reassemble.**  Write a list of instructions as program text, each in its
text form with the name of its target, behind a label line for its position and with one more
label line at the end: the text is assembled to these instructions, without data and with
exactly these labels.  No two of the instructions have the same text, and a constant, register,
address or system call number in its text form is read as the operand that it was written
from. -/
theorem source_reassembles :
    (∀ (code : List Instr) (source : String), code.length ≤ codeSegmentMax →
      (∀ i ∈ code, i.Writable) →
      (∀ i ∈ code, ∀ pos, i.target? = some pos → pos.toNat ≤ code.length) →
      Text.Writes source.toList (sourceLines code) →
      ∃ p, Program.assemble source = .ok p ∧ p.code.toList = code ∧ p.data = {} ∧
        p.labels.toList.Perm ((List.range (code.length + 1)).map fun k =>
          (posName (UInt16.ofNat k), .code (UInt16.ofNat k)))) ∧
    (∀ i j : Instr, i.Writable → j.Writable → i.text = j.text → i = j) ∧
    ∀ line : Nat,
      (∀ val, immediate line (Operand.text (.immediate val)) = .ok val) ∧
      (∀ idx, register line (Operand.text (.register idx)) = .ok idx) ∧
      (∀ addr, address line (Operand.text (.address addr)) = .ok addr) ∧
      (∀ no, number line (Operand.text (.number no)) = .ok no) ∧
      ∀ (bindings : Bindings) pos, bindings.Binds (posName pos) (.code pos) →
        target bindings line (Operand.textWith posName (.target pos)) = .ok pos := by
  refine ⟨?_, fun i j => eq_of_text_eq, ?_⟩
  · intro code source hlength hwritable htarget hsource
    exact exists_assemble_source hlength hwritable htarget hsource
  · intro line
    -- a numeral denotes the same whatever names are bound to
    exact ⟨fun val => immediate_eq_ok_iff.mpr (@denotes_immediate (Named posName) val),
      fun idx => register_eq_ok_iff.mpr (@denotes_register (Named posName) idx),
      fun addr => address_eq_ok_iff.mpr (@denotes_address (Named posName) addr),
      fun no => number_eq_ok_iff.mpr (@denotes_number (Named posName) no),
      fun bindings pos h => target_eq_ok_iff.mpr (.target h)⟩

/-- A jump to the end and the least constant there is. -/
theorem source_reassembles_sample :
    ∃ p, Program.assemble ("label L0000.h\njumpZero L0002.h\nlabel L0001.h\n" ++
        "setRegister 255 -2147483648\nlabel L0002.h\n") = .ok p ∧
      p.code.toList = [.jumpZero 2, .setRegister 255 (-2147483648)] ∧ p.data = {} ∧
      p.labels.toList.Perm [("L0000.h", .code 0), ("L0001.h", .code 1), ("L0002.h", .code 2)] := by
  refine source_reassembles.1 [.jumpZero 2, .setRegister 255 (-2147483648)] _
    (by decide) ?_ ?_ (.inl (by decide))
  · simp [Instr.Writable]
  · simp [Instr.target?]

end Accumulator.Assembly
