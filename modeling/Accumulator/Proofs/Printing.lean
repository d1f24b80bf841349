/-
  Accumulator/Proofs/Printing.lean
  ================================
  **A literal from program text to output.**

  Two programs print a literal.  One copies it into the mutable region and prints the
  copy, the other prints it where it is mapped:

      label L                     label L
      dataString ...              dataString ...
      set 100                     set 1073741824
      copyCodeMemory L            syscall 0
      syscall 0                   halt
      halt

  Both are followed all the way: the text is assembled (`exists_assemble_literal`), and
  the instructions are executed one after the other up to the end (`Straight`), each by
  what it does to its context.  What comes out is the text of the literal and a line
  feed, whatever characters it consists of; the first program leaves the literal in a
  memory that is zero everywhere else.
-/
import Accumulator.Proofs.Literal
import Accumulator.Proofs.OutputLimit
import Accumulator.Proofs.Written

namespace Accumulator

/-! ### Straight runs -/

/-- The step limit, if there is one, leaves room for `n` more steps. -/
def Core.StepsLeft (c : Core) (n : Nat) : Prop := ∀ max, c.stepLimit = some max → c.steps + n ≤ max

theorem Core.StepsLeft.admitted {c : Core} {n : Nat} (h : c.StepsLeft (n + 1)) :
    c.checkStep = .ok () := by
  cases hlimit : c.stepLimit with
  | none => exact checkStep_of_none hlimit
  | some max =>
    have hroom := h max hlimit
    exact checkStep_of_lt hlimit (by omega)

theorem Core.StepsLeft.counted {c : Core} {n : Nat} (h : c.StepsLeft (n + 1)) :
    c.counted.StepsLeft n := by
  intro max hlimit
  have hroom := h max hlimit
  simp only [Core.counted]
  omega

theorem Core.stepsLeft_ofConfig {config : Config} {n : Nat}
    (h : ∀ max, config.stepLimit = some max → n ≤ max) : (Core.ofConfig config).StepsLeft n := by
  intro max hlimit
  have hsteps : (Core.ofConfig config).steps = 0 := rfl
  rw [hsteps, Nat.zero_add]
  exact h max hlimit

section Run

variable {H : Type} [Host H]

/-- A run of `n` steps or more halts and leaves `m'`. -/
def Machine.HaltsIn (m m' : Machine H) (n : Nat) : Prop :=
  m'.state = .halted ∧ ∀ fuel, n ≤ fuel → m.runFor fuel = (.ok false, m')

theorem Machine.HaltsIn.of_stop {m m' : Machine H} (h : m.step = (.ok false, m'))
    (hstate : m'.state = .halted) : m.HaltsIn m' 1 := by
  refine ⟨hstate, ?_⟩
  intro fuel hfuel
  obtain ⟨fuel, rfl⟩ : ∃ k, fuel = k + 1 := ⟨fuel - 1, by omega⟩
  rw [runFor, h]

theorem Machine.HaltsIn.of_next {m next m' : Machine H} {n : Nat} (h : m.step = (.ok true, next))
    (hrest : next.HaltsIn m' n) : m.HaltsIn m' (n + 1) := by
  refine ⟨hrest.1, ?_⟩
  intro fuel hfuel
  obtain ⟨fuel, rfl⟩ : ∃ k, fuel = k + 1 := ⟨fuel - 1, by omega⟩
  rw [runFor, h]
  exact hrest.2 fuel (by omega)

/-- Instructions that are executed one after the other up to a `halt`, from one context to
another. -/
inductive Straight : List Instr → Context H → Context H → Prop
  | halt {ctx : Context H} (hadmitted : ctx.core.checkStep = .ok ()) :
      Straight [.halt] ctx ctx.counted
  | next {i : Instr} {code : List Instr} {ctx next last : Context H}
      (hadmitted : ctx.core.checkStep = .ok ())
      (hexec : ∀ pos, i.exec pos ctx.counted = .ok .next next)
      (h : Straight code next last) : Straight (i :: code) ctx last

theorem Program.instr?_of_append {p : Program} {front code : List Instr} {i : Instr} {ip : Pos}
    (hcode : p.code.toList = front ++ i :: code) (hip : ip.toNat = front.length) :
    p.instr? ip = some i := by
  rw [Program.instr?, ← Array.getElem?_toList, hcode, hip]
  simp

/-- **A straight run halts.**  Wherever the instructions stand at the end of a program, running
them halts. -/
theorem Straight.haltsIn {code : List Instr} {ctx last : Context H} (h : Straight code ctx last)
    {program : Program} {front : List Instr} {ip : Pos}
    (hcode : program.code.toList = front ++ code) (hfits : program.code.size ≤ codeSegmentMax)
    (hip : ip.toNat = front.length) :
    ∃ m', Machine.HaltsIn ⟨ctx, program, ip, .running⟩ m' code.length ∧ m'.toContext = last := by
  induction h generalizing front ip with
  | @halt ctx hadmitted =>
    have hfetch := Program.instr?_of_append hcode hip
    have hstep : Machine.step ⟨ctx, program, ip, .running⟩ =
        (.ok false, ⟨ctx.counted, program, ip, .halted⟩) := by
      simp only [Machine.step, Machine.attempt, hfetch, hadmitted]
      rfl
    exact ⟨_, .of_stop hstep rfl, rfl⟩
  | @next i code ctx next last hadmitted hexec _ ih =>
    have hfetch := Program.instr?_of_append hcode hip
    have hroom : ip.toNat < posMax := by
      have hlength : (front ++ i :: code).length = program.code.size := by
        rw [← hcode, Array.length_toList]
      simp only [List.length_append, List.length_cons, codeSegmentMax, posMax] at hlength hfits ⊢
      omega
    have hstep : Machine.step ⟨ctx, program, ip, .running⟩ =
        (.ok true, ⟨next, program, ip + 1, .running⟩) := by
      simp only [Machine.step, Machine.attempt, hfetch, hadmitted, hexec, Attempt.move,
        if_pos hroom]
    have hnext : (ip + 1).toNat = (front ++ [i]).length := by
      have hone : (1 : UInt16).toNat = 1 := rfl
      simp only [posMax] at hroom
      rw [List.length_append, List.length_singleton, ← hip, UInt16.toNat_add, hone]
      omega
    obtain ⟨m', hrest, hlast⟩ := @ih (front ++ [i]) (ip + 1) (by simpa using hcode) hnext
    exact ⟨m', .of_next hstep hrest, hlast⟩

variable {code : List Instr} {core : Core} {memory : Memory} {host : H} {last : Context H}
  {n : Nat}

theorem Straight.set (val : Int32) (hleft : core.StepsLeft (n + 1))
    (h : Straight code ⟨core.counted.putMain val, memory, host⟩ last) :
    Straight (.set val :: code) ⟨core, memory, host⟩ last :=
  .next hleft.admitted (fun _ => rfl) h

theorem Straight.copy {ref : DataRef} {memory' : Memory} (hleft : core.StepsLeft (n + 1))
    (hcopy : memory.copyLiteral ref core.main.toUInt32 = .ok memory')
    (h : Straight code ⟨core.counted, memory', host⟩ last) :
    Straight (.copyCodeMemory ref :: code) ⟨core, memory, host⟩ last := by
  refine .next hleft.admitted ?_ h
  intro pos
  have hask : memory.copyLiteral ref core.counted.main.toUInt32 = .ok memory' := hcopy
  simp only [Instr.exec, Exec.mainValue, Exec.store, bind, EStateM.bind, Exec.ask,
    Context.counted, hask]
  rfl

theorem Straight.print {bytes : List UInt8} {host' : H} (hleft : core.StepsLeft (n + 1))
    (hread : memory.readString core.main.toUInt32 = .ok bytes)
    (hhost : Host.printText bytes host = (host', none))
    (h : Straight code ⟨core.counted, memory, host'⟩ last) :
    Straight (.syscall 0 :: code) ⟨core, memory, host⟩ last := by
  refine .next hleft.admitted ?_ h
  intro pos
  have houtput : Syscall.printText.output core.counted memory =
      .ok (Host.printText (H := H) bytes) :=
    Outcome.map_eq_ok_iff.mpr ⟨bytes, hread, rfl⟩
  have hnumber : Syscall.ofNumber 0 = .ok .printText := rfl
  have hexec := Instr.exec_syscall_of_ok hnumber pos ⟨core.counted, memory, host⟩ houtput
  rw [Context.counted, hexec, hhost]
  rfl

end Run

theorem Writer.printText_unlimited (output : Array UInt8) (bytes : List UInt8) :
    Host.printText bytes (unlimited output) = (unlimited (output ++ (bytes ++ [0x0a])), none) := by
  change writeAll [bytes, [0x0a]] (unlimited output) = _
  rw [writeAll_eq]
  rfl

/-! ### The two programs -/

/-- The address that a number is put into the main register for. -/
theorem toNat_toUInt32_ofInt {d : Nat} (h : d < UInt32.size) :
    (Int32.ofInt d).toUInt32.toNat = d := by
  have hword : (Int32.ofInt d).toUInt32 = UInt32.ofNat d := UInt32.toFin_inj.mp rfl
  rw [hword, UInt32.toNat_ofNat_of_lt' h]

section Programs

variable {H : Type} [Host H] {core : Core} {host host' : H} {ref : DataRef} {rodata : Array UInt8}
  {bytes : List UInt8} {size : Nat}

theorem straight_of_copied {d : Nat} (hleft : core.StepsLeft 4)
    (hmarks : ref.Marks rodata.toList bytes) (hzero : 0 ∉ bytes)
    (hroom : d + bytes.length + 1 ≤ min size memorySizeMax)
    (hhost : Host.printText bytes host = (host', none)) :
    ∃ core', Straight [.set (Int32.ofInt d), .copyCodeMemory ref, .syscall 0, .halt]
      ⟨core, .ofSize size rodata, host⟩
      ⟨core', (Memory.ofSize size rodata).stored d (bytes ++ [0]), host'⟩ := by
  have haddr : (Int32.ofInt d).toUInt32.toNat = d := by
    refine toNat_toUInt32_ofInt ?_
    simp only [memorySizeMax, rodataBase, UInt32.size] at hroom ⊢
    omega
  have hcopy := @Memory.copyLiteral_of_marks ref bytes (.ofSize size rodata)
    (Int32.ofInt d).toUInt32 hmarks (by rwa [haddr])
  have hread := @Memory.readString_stored_ofSize size (Int32.ofInt d).toUInt32 rodata bytes
    (by rwa [haddr]) hzero
  rw [haddr] at hcopy hread
  have hleft₃ := hleft.counted
  have hleft₂ := hleft₃.counted
  have hleft₁ := hleft₂.counted
  exact ⟨_, .set _ hleft (.copy hleft₃ hcopy (.print hleft₂ hread hhost (.halt hleft₁.admitted)))⟩

theorem straight_of_mapped (hleft : core.StepsLeft 3)
    (hmarks : ref.Marks rodata.toList bytes) (hzero : 0 ∉ bytes) (hstart : ref.start = 0)
    (hhost : Host.printText bytes host = (host', none)) :
    ∃ core', Straight [.set (Int32.ofInt rodataBase), .syscall 0, .halt]
      ⟨core, .ofSize size rodata, host⟩ ⟨core', .ofSize size rodata, host'⟩ := by
  have haddr : (Int32.ofInt rodataBase).toUInt32 = ref.address := by
    have hoffset : ref.offset.toNat = 0 := hstart
    rw [DataRef.address, hoffset]
    rfl
  have hread := @Memory.readString_of_marks ref bytes (.ofSize size rodata) hmarks hzero
  rw [← haddr] at hread
  have hleft₂ := hleft.counted
  have hleft₁ := hleft₂.counted
  exact ⟨_, .set _ hleft (.print hleft₂ hread hhost (.halt hleft₁.admitted))⟩

end Programs

end Accumulator

namespace Accumulator.Assembly

/-! ### Their texts -/

/-- A literal behind a label, and operations. -/
def literalStatements (name : String) (text : List Char) (ops : List (String × List String)) :
    List Statement :=
  .label name :: .data text :: ops.map fun op => .op op.1 op.2

/-- The reference to the first literal of a program. -/
def firstRef (text : List Char) : DataRef := ⟨0, UInt16.ofNat ((Utf8.encode text).length + 1)⟩

section Literal

variable {name : String} {text : List Char} {ops : List (String × List String)}

theorem filterMap_ops {α : Type} {f : Statement → Option α}
    (h : ∀ mnemonic operands, f (.op mnemonic operands) = none) :
    (ops.map fun op => Statement.op op.1 op.2).filterMap f = [] := by
  simp [h]

theorem operations_literal (n : Nat) :
    operations (numbered n (literalStatements name text ops)) = ops := by
  rw [operations_numbered]
  change (ops.map fun op => Statement.op op.1 op.2).filterMap Statement.operation? = ops
  rw [List.filterMap_map]
  exact List.filterMap_some

theorem labelNames_literal (n : Nat) :
    labelNames (numbered n (literalStatements name text ops)) = [name] := by
  rw [labelNames_numbered, literalStatements, List.filterMap_cons, List.filterMap_cons,
    filterMap_ops fun _ _ => rfl]
  rfl

theorem dataBytes_literal (n : Nat) :
    dataBytes (numbered n (literalStatements name text ops)) = Utf8.encode text ++ [0] := by
  rw [dataBytes_numbered, literalStatements, List.filterMap_cons, List.filterMap_cons,
    filterMap_ops fun _ _ => rfl]
  simp [Statement.text?]

theorem exists_assemble_literal {source : String} {code : List Instr}
    (hname : (Statement.label name).Printable) (htext : (Statement.data text).Printable)
    (hfits : (Utf8.encode text).length + 1 ≤ dataSegmentMax)
    (hops : ∀ op ∈ ops, (Statement.op op.1 op.2).Printable) (hlength : ops.length ≤ codeSegmentMax)
    (hcode : ∀ binds : String → Label → Prop, binds name (.data (firstRef text)) →
      List.Forall₂ (Translates binds) ops code)
    (hsource : Text.Writes source.toList
      ((literalStatements name text ops).map Statement.written)) :
    ∃ p, Program.assemble source = .ok p ∧ p.code.toList = code ∧
      (firstRef text).Marks p.data.bytes.toList (Utf8.encode text) := by
  have hprintable : ∀ s ∈ literalStatements name text ops, s.Printable := by
    refine List.forall_mem_cons.mpr ⟨hname, List.forall_mem_cons.mpr ⟨htext, ?_⟩⟩
    intro s hs
    obtain ⟨op, hop, rfl⟩ := List.mem_map.mp hs
    exact hops op hop
  have hrefLength : (firstRef text).length.toNat = (Utf8.encode text).length + 1 :=
    UInt16.toNat_ofNat_of_lt' (Nat.lt_succ_of_le hfits)
  have hbinds : Binds (numbered 1 (literalStatements name text ops)) name
      (.data (firstRef text)) :=
    @binds_literal 1 name [] _ text _ rfl rfl hrefLength
  have hmeaning : List.Forall₂ (Translates (Binds (numbered 1 (literalStatements name text ops))))
      (operations (numbered 1 (literalStatements name text ops))) code := by
    rw [operations_literal]
    exact hcode _ hbinds
  obtain ⟨p, hp, hassembled, hpcode⟩ := exists_assembleStatements
    (by simp [labelNames_literal]) (by rwa [operations_literal])
    (by simpa [dataBytes_literal] using hfits) hmeaning
  have hstmts := statements_of_writes hsource hprintable
  refine ⟨p, Outcome.bind_eq_ok_iff.mpr ⟨_, hstmts, hp⟩, hpcode, [], [], ?_, rfl, ?_⟩
  · rw [hassembled.data_eq, dataBytes_literal]
    simp
  · rw [DataRef.stop, hrefLength]
    rfl

end Literal

/-- Program text that copies a literal to address `d` and prints the copy. -/
def copyingLines (name : String) (text : List Char) (d : Nat) : List (List Char) :=
  [("label " ++ name).toList, "dataString ".toList ++ text, ("set " ++ toString d).toList,
    ("copyCodeMemory " ++ name).toList, "syscall 0".toList, "halt".toList]

/-- Program text that prints a literal where it is mapped. -/
def mappedLines (name : String) (text : List Char) : List (List Char) :=
  [("label " ++ name).toList, "dataString ".toList ++ text, "set 1073741824".toList,
    "syscall 0".toList, "halt".toList]

theorem copyingLines_eq (name : String) (text : List Char) (d : Nat) :
    copyingLines name text d = (literalStatements name text [("set", [toString d]),
      ("copyCodeMemory", [name]), ("syscall", ["0"]), ("halt", [])]).map Statement.written := by
  simp [copyingLines, literalStatements, Statement.written, Text.spaced_cons, labelKeyword,
    dataKeyword]

theorem mappedLines_eq (name : String) (text : List Char) :
    mappedLines name text = (literalStatements name text [("set", [toString rodataBase]),
      ("syscall", ["0"]), ("halt", [])]).map Statement.written := by
  have hbase : toString rodataBase = "1073741824" := by decide
  rw [hbase]
  simp [mappedLines, literalStatements, Statement.written, Text.spaced_cons, labelKeyword,
    dataKeyword]

section Operations

variable {binds : String → Label → Prop}

theorem translates_set {d : Nat} (h : (d : Int) ≤ NumericKind.greatest .immediate) :
    Translates binds ("set", [toString d]) (.set (Int32.ofInt d)) := by
  have hnumeric : Numeric .immediate (toString d) d := by
    refine numeric_iff.mpr ⟨Numeral.spells_toString_nat d, ?_, h⟩
    simp only [NumericKind.least]
    omega
  exact ⟨.immediate .set, _, rfl, .immediate _ _, .cons (.immediate hnumeric rfl) .nil⟩

theorem translates_copy {name : String} {ref : DataRef} (h : binds name (.data ref)) :
    Translates binds ("copyCodeMemory", [name]) (.copyCodeMemory ref) :=
  ⟨.literal .copyCodeMemory, _, rfl, .literal _ _, .cons (.literal h) .nil⟩

theorem translates_print : Translates binds ("syscall", ["0"]) (.syscall 0) := by
  have hnumeric : Numeric .syscall "0" 0 := ⟨by decide, by decide, by decide⟩
  exact ⟨.number .syscall, _, rfl, .number _ _, .cons (.number hnumeric rfl) .nil⟩

theorem translates_halt : Translates binds ("halt", []) .halt :=
  ⟨.plain .halt, [], rfl, .plain _, .nil⟩

end Operations

theorem printable_set (d : Nat) : (Statement.op "set" [toString d]).Printable := by
  refine printable_mnemonic (.set 0) ?_
  simpa using (Numeral.spells_toString_nat d).isPlain

theorem printable_print : (Statement.op "syscall" ["0"]).Printable := by
  have hzero : IsPlain "0".toList := by decide
  exact printable_mnemonic (.syscall 0) (by simpa using hzero)

theorem printable_halt : (Statement.op "halt" []).Printable := printable_mnemonic .halt (by simp)

section Texts

variable {name : String} {text : List Char} {source : String}

theorem exists_assemble_copying {d : Nat} (hname : (Statement.label name).Printable)
    (htext : (Statement.data text).Printable)
    (hfits : (Utf8.encode text).length + 1 ≤ dataSegmentMax)
    (hd : (d : Int) ≤ NumericKind.greatest .immediate)
    (hsource : Text.Writes source.toList (copyingLines name text d)) :
    ∃ p, Program.assemble source = .ok p ∧
      p.code.toList = [.set (Int32.ofInt d), .copyCodeMemory (firstRef text), .syscall 0, .halt] ∧
      (firstRef text).Marks p.data.bytes.toList (Utf8.encode text) := by
  have hplain : IsPlain name.toList := by
    cases hname with
    | label hplain _ => exact hplain
  have hcopy : (Statement.op "copyCodeMemory" [name]).Printable :=
    printable_mnemonic (.copyCodeMemory (firstRef text)) (by simpa using hplain)
  rw [copyingLines_eq] at hsource
  refine exists_assemble_literal hname htext hfits ?_ (by simp [codeSegmentMax]) ?_ hsource
  · simp only [List.forall_mem_cons]
    exact ⟨printable_set d, hcopy, printable_print, printable_halt, by simp⟩
  · intro binds hbinds
    exact .cons (translates_set hd) (.cons (translates_copy hbinds)
      (.cons translates_print (.cons translates_halt .nil)))

theorem exists_assemble_mapped (hname : (Statement.label name).Printable)
    (htext : (Statement.data text).Printable)
    (hfits : (Utf8.encode text).length + 1 ≤ dataSegmentMax)
    (hsource : Text.Writes source.toList (mappedLines name text)) :
    ∃ p, Program.assemble source = .ok p ∧
      p.code.toList = [.set (Int32.ofInt rodataBase), .syscall 0, .halt] ∧
      (firstRef text).Marks p.data.bytes.toList (Utf8.encode text) := by
  rw [mappedLines_eq] at hsource
  refine exists_assemble_literal hname htext hfits ?_ (by simp [codeSegmentMax]) ?_ hsource
  · simp only [List.forall_mem_cons]
    exact ⟨printable_set rodataBase, printable_print, printable_halt, by simp⟩
  · intro binds _
    exact .cons (translates_set (by decide)) (.cons translates_print (.cons translates_halt .nil))

end Texts

/-! ### From text to output -/

/-- A program whose code is a straight run from a fresh machine halts. -/
theorem exists_haltsIn {p : Program} {config : Config} {host : Writer} {code : List Instr}
    {last : Context Writer} (hcode : p.code.toList = code) (hfits : code.length ≤ codeSegmentMax)
    (h : Straight code (Machine.ofConfig p config host).toContext last) :
    ∃ m, (Machine.ofConfig p config host).HaltsIn m code.length ∧ m.toContext = last := by
  have hsize : p.code.size ≤ codeSegmentMax := by
    rwa [← Array.length_toList, hcode]
  exact @Straight.haltsIn _ _ _ _ _ h p [] 0 hcode hsize rfl

section Runs

variable {name : String} {text : List Char} {config : Config} {source : String}

theorem copying_prints {d : Nat} (hname : (Statement.label name).Printable)
    (htext : (Statement.data text).Printable) (hnul : '\x00' ∉ text)
    (hfits : (Utf8.encode text).length + 1 ≤ dataSegmentMax)
    (hlimit : ∀ max, config.stepLimit = some max → 4 ≤ max)
    (hroom : d + (Utf8.encode text).length + 1 ≤ config.effectiveMemorySize)
    (hsource : Text.Writes source.toList (copyingLines name text d)) (output : Array UInt8) :
    ∃ p m, Program.assemble source = .ok p ∧
      (Machine.ofConfig p config (Writer.unlimited output)).HaltsIn m 4 ∧
      m.host = Writer.unlimited (output ++ (Utf8.encode text ++ [0x0a])) ∧
      m.memory.ram = List.replicate d 0 ++ (Utf8.encode text ++ [0]) ++
        List.replicate (config.effectiveMemorySize - (d + (Utf8.encode text).length + 1)) 0 := by
  have hmax : config.effectiveMemorySize ≤ memorySizeMax := Nat.min_le_right _ _
  have hd : (d : Int) ≤ NumericKind.greatest .immediate := by
    simp only [memorySizeMax, rodataBase] at hmax
    simp only [NumericKind.greatest]
    omega
  rw [← Nat.min_eq_left hmax] at hroom ⊢
  obtain ⟨p, hp, hcode, hmarks⟩ := exists_assemble_copying hname htext hfits hd hsource
  have hleft := Core.stepsLeft_ofConfig hlimit
  obtain ⟨core, hstraight⟩ := straight_of_copied hleft hmarks (Utf8.zero_not_mem_encode hnul) hroom
    (Writer.printText_unlimited output _)
  obtain ⟨m, hhalts, hlast⟩ := exists_haltsIn hcode (by simp [codeSegmentMax]) hstraight
  refine ⟨p, m, hp, hhalts, congrArg Context.host hlast, ?_⟩
  have hmemory := congrArg Context.memory hlast
  rw [hmemory, Memory.ram_stored_ofSize (by rwa [List.length_append])]
  simp [Nat.add_assoc]

theorem mapped_prints (hname : (Statement.label name).Printable)
    (htext : (Statement.data text).Printable) (hnul : '\x00' ∉ text)
    (hfits : (Utf8.encode text).length + 1 ≤ dataSegmentMax)
    (hlimit : ∀ max, config.stepLimit = some max → 3 ≤ max)
    (hsource : Text.Writes source.toList (mappedLines name text)) (output : Array UInt8) :
    ∃ p m, Program.assemble source = .ok p ∧
      (Machine.ofConfig p config (Writer.unlimited output)).HaltsIn m 3 ∧
      m.host = Writer.unlimited (output ++ (Utf8.encode text ++ [0x0a])) := by
  obtain ⟨p, hp, hcode, hmarks⟩ := exists_assemble_mapped hname htext hfits hsource
  have hleft := Core.stepsLeft_ofConfig hlimit
  obtain ⟨core, hstraight⟩ := straight_of_mapped hleft hmarks (Utf8.zero_not_mem_encode hnul) rfl
    (Writer.printText_unlimited output _)
  obtain ⟨m, hhalts, hlast⟩ := exists_haltsIn hcode (by simp [codeSegmentMax]) hstraight
  exact ⟨p, m, hp, hhalts, congrArg Context.host hlast⟩

end Runs

/-- **Literals survive from text to output.**  A text without line feed and NUL and without blanks
at its ends, written as a literal, copied to an address where there is room for it and printed,
comes out as its bytes and a line feed unless the step limit is below the four steps that this
takes; the literal and its terminator are then all that is in the mutable region.  Printed where
it is mapped, it comes out as the same bytes.  In every assembled program, the reference of a data
label names the bytes of the literal that the label leads to, and a string read from its address
is these bytes unless there is a NUL in it. -/
theorem literal_survives :
    (∀ (name : String) (text : List Char) (d : Nat) (config : Config) (output : Array UInt8)
      (copying mapped : String), IsPlain name.toList → IsName name.toList →
      '\n' ∉ text → '\x00' ∉ text → Text.Tight text →
      (Utf8.encode text).length + 1 ≤ dataSegmentMax →
      (∀ max, config.stepLimit = some max → 4 ≤ max) →
      d + (Utf8.encode text).length + 1 ≤ config.effectiveMemorySize →
      Text.Writes copying.toList (copyingLines name text d) →
      Text.Writes mapped.toList (mappedLines name text) →
      (∃ p m, Program.assemble copying = .ok p ∧
        (Machine.ofConfig p config (Writer.unlimited output)).HaltsIn m 4 ∧
        m.host = Writer.unlimited (output ++ (Utf8.encode text ++ [0x0a])) ∧
        m.memory.ram = List.replicate d 0 ++ (Utf8.encode text ++ [0]) ++
          List.replicate (config.effectiveMemorySize - (d + (Utf8.encode text).length + 1)) 0) ∧
      ∃ p m, Program.assemble mapped = .ok p ∧
        (Machine.ofConfig p config (Writer.unlimited output)).HaltsIn m 3 ∧
        m.host = Writer.unlimited (output ++ (Utf8.encode text ++ [0x0a]))) ∧
    ∀ (source name : String) (p : Program) (ref : DataRef),
      Program.assemble source = .ok p → p.labels[name]? = some (.data ref) →
      ∃ stmts text, statements source.toList = .ok stmts ∧
        LeadsTo stmts name (some (.data text)) ∧ p.data.literal? ref = some (Utf8.encode text) ∧
        ('\x00' ∉ text → ∀ m : Memory, m.rodata = p.data.bytes →
          m.readString ref.address = .ok (Utf8.encode text)) := by
  constructor
  · intro name text d config output copying mapped hplain hname hfeed hnul htight hfits hlimit
      hroom hcopying hmapped
    have hlabel : (Statement.label name).Printable := .label hplain hname
    have htext : (Statement.data text).Printable := .data hfeed htight
    have hthree : ∀ max, config.stepLimit = some max → 3 ≤ max := fun max h =>
      Nat.le_of_succ_le (hlimit max h)
    exact ⟨copying_prints hlabel htext hnul hfits hlimit hroom hcopying output,
      mapped_prints hlabel htext hnul hfits hthree hmapped output⟩
  · intro source name p ref hp hlabel
    exact literal_of_label hp hlabel

/-- A literal with a comment character, a blank and a character of two bytes. -/
theorem literal_survives_sample :
    ((∃ p m, Program.assemble
          "label L\ndataString # é\nset 2\ncopyCodeMemory L\nsyscall 0\nhalt\n" = .ok p ∧
        (Machine.ofConfig p { memorySize := 8 } (Writer.unlimited #[])).HaltsIn m 4 ∧
        m.host = Writer.unlimited #[0x23, 0x20, 0xc3, 0xa9, 0x0a] ∧
        m.memory.ram = [0, 0, 0x23, 0x20, 0xc3, 0xa9, 0, 0]) ∧
      ∃ p m, Program.assemble
          "label L\ndataString # é\nset 1073741824\nsyscall 0\nhalt" = .ok p ∧
        (Machine.ofConfig p { memorySize := 8 } (Writer.unlimited #[])).HaltsIn m 3 ∧
        m.host = Writer.unlimited #[0x23, 0x20, 0xc3, 0xa9, 0x0a]) ∧
    ∃ p stmts text, Program.assemble "dataString a\nlabel L\ndataString b" = .ok p ∧
      LeadsTo stmts "L" (some (.data text)) ∧ p.data.literal? ⟨2, 2⟩ = some (Utf8.encode text) := by
  refine ⟨literal_survives.1 "L" "# é".toList 2 { memorySize := 8 } #[] _ _ (by decide) ?_
    (by decide) (by decide) ?_ (by decide) nofun (by decide)
    (.inl (by decide)) (.inr (by decide)), ?_⟩
  · simp [IsName]
  · simp [Text.Tight, Text.isBlank, Text.blankRanges]
  · have hrun : (Program.assemble "dataString a\nlabel L\ndataString b").map
        (fun p => p.labels["L"]?) = .ok (some (.data ⟨2, 2⟩)) := by
      decide
    obtain ⟨p, hp, hlabel⟩ := Outcome.map_eq_ok_iff.mp hrun
    obtain ⟨stmts, text, -, hleads, hliteral, -⟩ := literal_survives.2 _ _ p _ hp hlabel
    exact ⟨p, stmts, text, hp, hleads, hliteral⟩

end Accumulator.Assembly
