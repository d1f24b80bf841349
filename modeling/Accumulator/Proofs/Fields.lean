/-
  Accumulator/Proofs/Fields.lean
  ==============================
  **Where a reader stops when the bytes end early.**

  The bytes of an instruction are cut into fields: the opcode byte, and behind it each
  word or byte that is read in one go.  A literal reference is two fields, every other
  operand is one.  The fields of an instruction make up its encoding
  (`Instr.flatten_fields`).

  A reader takes whole fields only.  `Reader.Parses r F` says what comes of it on every
  cursor inside its buffer: either the bytes that remain start with all fields of a value,
  and the reader gives the value and stands behind them; or the bytes end within a field
  of some value, and the reader fails and stands in front of that field.  `Accepts` tells
  the same of success, but has no word about failure.

  Parsing composes as accepting does.  If the first of two readers fails, then any value
  of the second one serves to complete the fields, and so `Parses.exists_rel` is all that
  `Parses.bind` needs to know about it.
-/
import Accumulator.Proofs.Bytecode

namespace Accumulator

/-! ### Fields of instructions -/

/-- The bytes of one operand, cut where they are read one after the other. -/
def Operand.fields : Operand → List (List UInt8)
  | target pos => [Word.toBytes 2 pos.toNat]
  | immediate val => [Word.toBytes 4 val.toUInt32.toNat]
  | register idx => [[idx]]
  | address addr => [Word.toBytes 4 addr.toNat]
  | literal data => [Word.toBytes 2 data.offset.toNat, Word.toBytes 2 data.length.toNat]
  | number no => [[no]]
  | opcode _ => []

theorem Operand.flatten_fields (operand : Operand) : operand.fields.flatten = operand.encode := by
  cases operand <;> simp [fields, encode]

/-- The opcode byte and the fields of all operands, in order. -/
def Instr.fields (i : Instr) : List (List UInt8) := [i.opcode] :: i.operands.flatMap Operand.fields

theorem Instr.flatten_fields (i : Instr) : i.fields.flatten = i.encode := by
  have hoperands : (i.operands.flatMap Operand.fields).flatten = i.encodeOperands := by
    rw [← List.flatMap_id, List.flatMap_assoc]
    simp only [List.flatMap_id, Operand.flatten_fields, encodeOperands]
  rw [fields, List.flatten_cons, hoperands]
  rfl

theorem Form.Makes.fields_eq {op : UInt8} {operands : List Operand} {i : Instr}
    (h : (ofOpcode op).Makes operands i) : i.fields = [op] :: operands.flatMap Operand.fields := by
  unfold ofOpcode at h
  split at h <;> cases h <;> rfl

/-! ### Bytes that end within a field -/

/-- The bytes end within one of the fields: they hold the fields in front of it, which are
`size` bytes together, and of the field itself a proper part. -/
def CutOff (fields : List (List UInt8)) (bytes : List UInt8) (size : Nat) : Prop :=
  ∃ done next later part, fields = done ++ next :: later ∧ bytes = done.flatten ++ part ∧
    part <+: next ∧ part ≠ next ∧ size = done.flatten.length

namespace CutOff

variable {fields : List (List UInt8)} {bytes : List UInt8} {size : Nat}

theorem prepend (h : CutOff fields bytes size) (front : List (List UInt8)) :
    CutOff (front ++ fields) (front.flatten ++ bytes) (front.flatten.length + size) := by
  obtain ⟨done, next, later, part, rfl, rfl, hpart, hne, rfl⟩ := h
  exact ⟨front ++ done, next, later, part, by simp, by simp, hpart, hne, by simp⟩

theorem append (h : CutOff fields bytes size) (back : List (List UInt8)) :
    CutOff (fields ++ back) bytes size := by
  obtain ⟨done, next, later, part, rfl, rfl, hpart, hne, rfl⟩ := h
  exact ⟨done, next, later ++ back, part, by simp, rfl, hpart, hne, rfl⟩

theorem size_le (h : CutOff fields bytes size) : size ≤ bytes.length := by
  obtain ⟨done, next, later, part, -, rfl, -, -, rfl⟩ := h
  simp

theorem isPrefix (h : CutOff fields bytes size) : bytes <+: fields.flatten := by
  obtain ⟨done, next, later, part, rfl, rfl, ⟨more, rfl⟩, -, -⟩ := h
  exact ⟨more ++ later.flatten, by simp⟩

theorem ne_flatten (h : CutOff fields bytes size) : bytes ≠ fields.flatten := by
  obtain ⟨done, next, later, part, rfl, rfl, ⟨more, rfl⟩, hne, -⟩ := h
  have hmore : more ≠ [] := by
    rintro rfl
    exact hne (List.append_nil part).symm
  simp [hmore]

end CutOff

/-! ### Parsing -/

namespace Reader

variable {α β : Type} {r : Reader α} {F G : α → List (List UInt8) → Prop}

/-- The reader takes all fields of a value, or fails in front of a field in which the bytes
end. -/
def Parses (r : Reader α) (F : α → List (List UInt8) → Prop) : Prop :=
  ∀ c : Cursor, c.InBounds →
    (∃ a fields rest, F a fields ∧ c.remaining = fields.flatten ++ rest ∧
      r c = .ok a (c.advance fields.flatten.length)) ∨
    ∃ a fields size, F a fields ∧ CutOff fields c.remaining size ∧
      r c = .error .endOfCode (c.advance size)

theorem Parses.mono (h : Parses r F) (hFG : ∀ a fields, F a fields → G a fields) :
    Parses r G := by
  intro c hc
  rcases h c hc with ⟨a, fields, rest, hF, hread⟩ | ⟨a, fields, size, hF, hread⟩
  · exact .inl ⟨a, fields, rest, hFG a fields hF, hread⟩
  · exact .inr ⟨a, fields, size, hFG a fields hF, hread⟩

theorem Parses.exists_rel (h : Parses r F) : ∃ a fields, F a fields := by
  rcases h _ (Cursor.inBounds_ofList []) with ⟨a, fields, -, hF, -⟩ | ⟨a, fields, -, hF, -⟩
  · exact ⟨a, fields, hF⟩
  · exact ⟨a, fields, hF⟩

theorem parses_pure (a : α) : Parses (pure a) fun b fields => b = a ∧ fields = [] := by
  intro c _
  exact .inl ⟨a, [], c.remaining, ⟨rfl, rfl⟩, rfl, rfl⟩

theorem bind_of_ok {k : α → Reader β} {c c' : Cursor} {a : α} (h : r c = .ok a c') :
    (r >>= k) c = k a c' := by
  simp only [bind, EStateM.bind, h]

theorem bind_of_error {k : α → Reader β} {c c' : Cursor} {e : EndOfCode}
    (h : r c = .error e c') : (r >>= k) c = .error e c' := by
  simp only [bind, EStateM.bind, h]

/-- A reader followed by another takes the fields of both, one after the other. -/
theorem Parses.bind {k : α → Reader β} {G : α → β → List (List UInt8) → Prop} (hr : Parses r F)
    (hk : ∀ a, Parses (k a) (G a)) :
    Parses (r >>= k) fun b fields =>
      ∃ a front back, F a front ∧ G a b back ∧ fields = front ++ back := by
  intro c hc
  rcases hr c hc with ⟨a, front, rest, hF, hrem, hread⟩ | ⟨a, front, size, hF, hcut, hread⟩
  · -- the first reader is served, and the second one goes on behind it
    have hrest := Cursor.remaining_after hrem
    rw [bind_of_ok hread]
    rcases hk a _ (hc.advance hrem) with
      ⟨b, back, rest', hG, hrem', hread'⟩ | ⟨b, back, size, hG, hcut, hread'⟩
    · refine .inl ⟨b, front ++ back, rest', ⟨a, front, back, hF, hG, rfl⟩, ?_, ?_⟩
      · rw [hrem, ← hrest, hrem', List.flatten_append, List.append_assoc]
      · rw [hread', Cursor.advance_advance, List.flatten_append, List.length_append]
    · refine .inr ⟨b, front ++ back, front.flatten.length + size,
        ⟨a, front, back, hF, hG, rfl⟩, ?_, ?_⟩
      · rw [hrest] at hcut
        rw [hrem]
        exact hcut.prepend front
      · rw [hread', Cursor.advance_advance]
  · obtain ⟨b, back, hG⟩ := (hk a).exists_rel
    exact .inr ⟨b, front ++ back, size, ⟨a, front, back, hF, hG, rfl⟩, hcut.append back,
      bind_of_error hread⟩

theorem Parses.map (hr : Parses r F) (f : α → β) :
    Parses (r >>= fun a => pure (f a)) fun b fields => ∃ a, F a fields ∧ b = f a := by
  refine (hr.bind fun a => parses_pure (f a)).mono ?_
  rintro b _ ⟨a, front, _, hF, ⟨hb, rfl⟩, rfl⟩
  rw [List.append_nil]
  exact ⟨a, hF, hb⟩

/-- All bytes that are read in one go are one field. -/
theorem parses_take (n : Nat) : Parses (take n) fun bs fields => bs.length = n ∧ fields = [bs] := by
  intro c hc
  have hlength := c.length_remaining
  by_cases hfit : n ≤ c.remaining.length
  · have hsplit : c.remaining = c.remaining.take n ++ c.remaining.drop n :=
      (List.take_append_drop n c.remaining).symm
    have hsize : (c.remaining.take n).length = n := List.length_take_of_le hfit
    refine .inl ⟨c.remaining.take n, [c.remaining.take n], c.remaining.drop n, ⟨hsize, rfl⟩, ?_, ?_⟩
    · simp
    · have hread := take_of_remaining hsplit hc
      rw [hsize] at hread
      rw [hread, List.flatten_singleton, hsize]
      rfl
  · -- any bytes behind the ones there are would complete the field
    have hrejected : ¬ c.pos + n ≤ c.bytes.size := by
      unfold Cursor.InBounds at hc
      omega
    refine .inr ⟨c.remaining ++ List.replicate (n - c.remaining.length) 0, _, 0, ⟨?_, rfl⟩, ?_, ?_⟩
    · rw [List.length_append, List.length_replicate]
      omega
    · refine ⟨[], _, [], c.remaining, rfl, rfl, List.prefix_append _ _, ?_, rfl⟩
      intro heq
      have hsame := congrArg List.length heq
      rw [List.length_append, List.length_replicate] at hsame
      omega
    · rw [take, if_neg hrejected]
      rfl

theorem parses_byte : Parses byte fun b fields => fields = [[b]] := by
  refine ((parses_take 1).map fun bs => UInt8.ofNat (Word.ofBytes bs)).mono ?_
  rintro b _ ⟨bs, ⟨hlength, rfl⟩, rfl⟩
  obtain ⟨x, rfl⟩ := List.length_eq_one_iff.mp hlength
  simp

theorem parses_word16 : Parses word16 fun w fields => fields = [Word.toBytes 2 w.toNat] := by
  refine ((parses_take 2).map fun bs => UInt16.ofNat (Word.ofBytes bs)).mono ?_
  rintro w _ ⟨bs, ⟨hlength, rfl⟩, rfl⟩
  rw [← Word.ofBytes_two_iff.mp ⟨hlength, rfl⟩]

theorem parses_word32 : Parses word32 fun w fields => fields = [Word.toBytes 4 w.toNat] := by
  refine ((parses_take 4).map fun bs => UInt32.ofNat (Word.ofBytes bs)).mono ?_
  rintro w _ ⟨bs, ⟨hlength, rfl⟩, rfl⟩
  rw [← Word.ofBytes_four_iff.mp ⟨hlength, rfl⟩]

/-- Whether it succeeds or fails, a reader leaves the buffer as it is and stays inside it. -/
theorem Parses.exists_advance (h : Parses r F) {c : Cursor} (hc : c.InBounds) :
    ∃ size, (c.advance size).InBounds ∧
      ((∃ a, r c = .ok a (c.advance size)) ∨ r c = .error .endOfCode (c.advance size)) := by
  rcases h c hc with ⟨a, fields, rest, -, hrem, hread⟩ | ⟨-, fields, size, -, hcut, hread⟩
  · exact ⟨_, hc.advance hrem, .inl ⟨a, hread⟩⟩
  · have hsize := hcut.size_le
    have hrem : c.remaining = c.remaining.take size ++ c.remaining.drop size :=
      (List.take_append_drop size c.remaining).symm
    have hin := hc.advance hrem
    rw [List.length_take_of_le hsize] at hin
    exact ⟨size, hin, .inr hread⟩

end Reader

open Reader

theorem Form.parses_read (form : Form) :
    Parses form.read fun i fields =>
      ∃ operands, form.Makes operands i ∧ fields = operands.flatMap Operand.fields := by
  cases form with
  | plain instr =>
    refine (parses_pure instr).mono ?_
    rintro _ _ ⟨rfl, rfl⟩
    exact ⟨_, .plain _, rfl⟩
  | target make =>
    refine (parses_word16.map make).mono ?_
    rintro _ _ ⟨pos, rfl, rfl⟩
    exact ⟨_, .target make pos, rfl⟩
  | immediate make =>
    refine (parses_word32.map fun w => make w.toInt32).mono ?_
    rintro _ _ ⟨w, rfl, rfl⟩
    exact ⟨_, .immediate make w.toInt32, rfl⟩
  | register make =>
    refine (parses_byte.map make).mono ?_
    rintro _ _ ⟨reg, rfl, rfl⟩
    exact ⟨_, .register make reg, rfl⟩
  | registerImmediate make =>
    refine (parses_byte.bind fun reg => parses_word32.map fun w => make reg w.toInt32).mono ?_
    rintro _ _ ⟨reg, _, _, rfl, ⟨w, rfl, rfl⟩, rfl⟩
    exact ⟨_, .registerImmediate make reg w.toInt32, rfl⟩
  | address make =>
    refine (parses_word32.map make).mono ?_
    rintro _ _ ⟨addr, rfl, rfl⟩
    exact ⟨_, .address make addr, rfl⟩
  | literal make =>
    refine (parses_word16.bind fun offset =>
      parses_word16.map fun length => make ⟨offset, length⟩).mono ?_
    rintro _ _ ⟨offset, _, _, rfl, ⟨length, rfl, rfl⟩, rfl⟩
    exact ⟨_, .literal make ⟨offset, length⟩, rfl⟩
  | number make =>
    refine (parses_byte.map make).mono ?_
    rintro _ _ ⟨no, rfl, rfl⟩
    exact ⟨_, .number make no, rfl⟩

/-- **Reading an instruction** takes all its fields, or stops in front of the one in which the
bytes end. -/
theorem Instr.parses_read : Parses Instr.read fun i fields => fields = i.fields := by
  refine (parses_byte.bind fun op => (Form.ofOpcode op).parses_read).mono ?_
  rintro i _ ⟨op, _, _, rfl, ⟨operands, hmakes, rfl⟩, rfl⟩
  exact hmakes.fields_eq.symm

end Accumulator
