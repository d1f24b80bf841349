/-
  Accumulator/Proofs/Stream.lean
  ==============================
  **Reading a stream of instructions to its end.**

  `Instr.drain` reads one instruction after the other and stops at the first reading that
  fails.  It comes to an end because every reading that succeeds moves the cursor on
  (`Instr.pos_lt_of_read`), and so a buffer takes at most one reading for each byte and
  the one that fails.

  What the readings gave accounts for the bytes: the encodings of the instructions stand
  in the buffer one behind the other, and the bytes behind them are the start of one more
  encoding that ends too early.  The failing reading stops in front of the field in which
  the bytes end (`drain_spec`).

  `Instr.readAll` looks for the end of the buffer before each reading.  It finds the same
  instructions and leaves the same cursor, and reports a failure exactly if there are
  bytes behind the last encoding (`readUpTo_eq`).
-/
import Accumulator.Proofs.Fields

namespace Accumulator.Instr

open Reader

variable {c c' : Cursor} {i : Instr}

/-! ### One reading -/

theorem inBounds_of_read (h : read c = .ok i c') : c.InBounds := by
  obtain ⟨op, mid, hbyte, -⟩ := bind_eq_ok_iff.mp h
  obtain ⟨bs, mid', htake, -⟩ := bind_eq_ok_iff.mp hbyte
  unfold take at htake
  split at htake
  · rename_i hfit
    exact Nat.le_of_succ_le hfit
  · cases htake

/-- A successful reading takes the encoding of what it gives. -/
theorem encode_of_read (h : read c = .ok i c') :
    ∃ rest, c.remaining = i.encode ++ rest ∧ c' = c.advance i.encode.length := by
  obtain ⟨_, rest, ⟨-, rfl⟩, hrem, hend⟩ := (accepts_read c (inBounds_of_read h) i c').mp h
  exact ⟨rest, hrem, hend⟩

theorem canonical_of_read (h : read c = .ok i c') : i.Canonical := by
  obtain ⟨_, _, ⟨hcanonical, -⟩, -, -⟩ := (accepts_read c (inBounds_of_read h) i c').mp h
  exact hcanonical

/-- A reading that fails stops in front of the field in which the bytes end. -/
theorem cutOff_of_read {e : EndOfCode} (hc : c.InBounds) (h : read c = .error e c') :
    ∃ (i : Instr) (size : Nat), CutOff i.fields c.remaining size ∧ c' = c.advance size := by
  rcases parses_read c hc with ⟨a, _, _, -, -, hread⟩ | ⟨a, _, size, rfl, hcut, hread⟩
  · cases hread.symm.trans h
  · cases hread.symm.trans h
    exact ⟨a, size, hcut, rfl⟩

theorem inBounds_after_read (h : read c = .ok i c') : c'.InBounds := by
  obtain ⟨rest, hrem, rfl⟩ := encode_of_read h
  exact (inBounds_of_read h).advance hrem

theorem pos_lt_of_read (h : read c = .ok i c') : c'.bytes = c.bytes ∧ c.pos < c'.pos := by
  obtain ⟨rest, -, rfl⟩ := encode_of_read h
  exact ⟨rfl, Nat.lt_add_of_pos_right (Nat.zero_lt_succ _)⟩

theorem unread_lt_of_read (h : read c = .ok i c') :
    c'.bytes.size - c'.pos < c.bytes.size - c.pos := by
  obtain ⟨hbytes, hpos⟩ := pos_lt_of_read h
  have hin : c'.pos ≤ c'.bytes.size := inBounds_after_read h
  rw [hbytes] at hin ⊢
  omega

/-! ### Readings up to the first that fails -/

/-- What reading until a failure gives. -/
structure Drained where
  /-- What the successful readings gave, each with the position it left. -/
  done : List (Instr × Nat)
  /-- The cursor that the failing reading left. -/
  last : Cursor

namespace Drained

/-- The instructions that were read. -/
def instrs (d : Drained) : List Instr := d.done.map Prod.fst

/-- How many readings there were: the successful ones and the one that failed. -/
def calls (d : Drained) : Nat := d.instrs.length + 1

/-- One more successful reading in front of the others. -/
def cons (entry : Instr × Nat) (d : Drained) : Drained := { d with done := entry :: d.done }

@[simp] theorem done_cons (entry : Instr × Nat) (d : Drained) :
    (d.cons entry).done = entry :: d.done := rfl

@[simp] theorem instrs_cons (entry : Instr × Nat) (d : Drained) :
    (d.cons entry).instrs = entry.1 :: d.instrs := rfl

@[simp] theorem last_cons (entry : Instr × Nat) (d : Drained) : (d.cons entry).last = d.last := rfl

end Drained

/-- Reads one instruction after the other until a reading fails. -/
def drain (c : Cursor) : Drained :=
  match _hread : read c with
  | .ok i c' => (drain c').cons (i, c'.pos)
  | .error _ c' => ⟨[], c'⟩
termination_by c.bytes.size - c.pos
decreasing_by exact unread_lt_of_read _hread

theorem drain_of_ok (h : read c = .ok i c') : drain c = (drain c').cons (i, c'.pos) := by
  rw [drain]
  split
  · rename_i h'
    cases h.symm.trans h'
    rfl
  · rename_i h'
    cases h.symm.trans h'

theorem drain_of_error {e : EndOfCode} (h : read c = .error e c') : drain c = ⟨[], c'⟩ := by
  rw [drain]
  split
  · rename_i h'
    cases h.symm.trans h'
  · rename_i h'
    cases h.symm.trans h'
    rfl

/-- The bytes that remain are the encodings of what is read and the start of one more, within
which the last reading stops. -/
theorem drain_spec (hc : c.InBounds) :
    ∃ (rest : List UInt8) (i : Instr) (size : Nat),
      c.remaining = (drain c).instrs.flatMap encode ++ rest ∧ CutOff i.fields rest size ∧
      (drain c).last = c.advance (((drain c).instrs.flatMap encode).length + size) := by
  fun_induction drain c with
  | case1 c i c' h ih =>
    obtain ⟨rest, i', size, hrest, hcut, hlast⟩ := ih (inBounds_after_read h)
    obtain ⟨back, hrem, rfl⟩ := encode_of_read h
    rw [Cursor.remaining_after hrem] at hrest
    refine ⟨rest, i', size, ?_, hcut, ?_⟩
    · rw [hrem, hrest, Drained.instrs_cons, List.flatMap_cons, List.append_assoc]
    · rw [Drained.last_cons, hlast, Cursor.advance_advance, Drained.instrs_cons, List.flatMap_cons,
        List.length_append, Nat.add_assoc]
  | case2 c e c' h =>
    obtain ⟨i', size, hcut, rfl⟩ := cutOff_of_read hc h
    exact ⟨c.remaining, i', size, rfl, hcut, by simp [Drained.instrs]⟩

theorem pos_le_of_mem_drain {entry : Instr × Nat} (h : entry ∈ (drain c).done) :
    entry.2 ≤ c.bytes.size := by
  fun_induction drain c with
  | case1 c i c' hread ih =>
    obtain ⟨hbytes, -⟩ := pos_lt_of_read hread
    rcases List.mem_cons.mp h with rfl | hlater
    · rw [← hbytes]
      exact inBounds_after_read hread
    · rw [← hbytes]
      exact ih hlater
  | case2 c e c' hread => cases h

theorem canonical_of_mem_drain {j : Instr} (h : j ∈ (drain c).instrs) : j.Canonical := by
  fun_induction drain c with
  | case1 c i c' hread ih =>
    rw [Drained.instrs_cons] at h
    rcases List.mem_cons.mp h with heq | hlater
    · rw [heq]
      exact canonical_of_read hread
    · exact ih hlater
  | case2 c e c' hread => cases h

theorem length_le_encodings (instrs : List Instr) :
    instrs.length ≤ (instrs.flatMap encode).length := by
  induction instrs with
  | nil => exact Nat.le_refl 0
  | cons i instrs ih =>
    rw [List.flatMap_cons, List.length_append, List.length_cons, encode, List.length_cons]
    omega

/-! ### Reading a whole buffer -/

theorem drain_of_atEnd (hc : c.InBounds) (hend : c.atEnd = true) : drain c = ⟨[], c⟩ := by
  have hrem := hc.atEnd_iff.mp hend
  rcases hread : read c with ⟨i, c'⟩ | ⟨e, c'⟩
  · obtain ⟨rest, hsplit, -⟩ := encode_of_read hread
    rw [hrem] at hsplit
    cases hsplit
  · obtain ⟨_, size, hcut, rfl⟩ := cutOff_of_read hc hread
    have hsize := hcut.size_le
    rw [hrem] at hsize
    obtain rfl : size = 0 := Nat.le_zero.mp hsize
    exact drain_of_error hread

/-- What reading a whole buffer answers, in terms of the readings. -/
def Drained.decoded (d : Drained) (done : Array (Instr × Nat)) (bytes : List UInt8) : Decoded :=
  ⟨done ++ d.done, d.last, if bytes = d.instrs.flatMap encode then none else some .endOfCode⟩

theorem decoded_of_atEnd (done : Array (Instr × Nat)) (hc : c.InBounds) (hend : c.atEnd = true) :
    (drain c).decoded done c.remaining = ⟨done, c, none⟩ := by
  rw [drain_of_atEnd hc hend, hc.atEnd_iff.mp hend]
  simp [Drained.decoded, Drained.instrs]

/-- With one reading left for each byte, looking for the end of the buffer first changes
nothing but the report of a failure. -/
theorem readUpTo_eq {fuel : Nat} {done : Array (Instr × Nat)} (hc : c.InBounds)
    (hfuel : c.bytes.size - c.pos ≤ fuel) :
    readUpTo fuel done c = (drain c).decoded done c.remaining := by
  induction fuel generalizing c done with
  | zero =>
    have hend : c.atEnd = true :=
      decide_eq_true (Nat.le_of_sub_eq_zero (Nat.le_zero.mp hfuel))
    exact (decoded_of_atEnd done hc hend).symm
  | succ fuel ih =>
    by_cases hend : c.atEnd = true
    · rw [readUpTo, if_pos hend, decoded_of_atEnd done hc hend]
    · rw [readUpTo, if_neg hend]
      rcases hread : read c with ⟨i, c'⟩ | ⟨e, c'⟩
      · have hunread := unread_lt_of_read hread
        have hlater := @ih c' (done.push (i, c'.pos)) (inBounds_after_read hread) (by omega)
        obtain ⟨rest, hrem, rfl⟩ := encode_of_read hread
        simp only [hlater, drain_of_ok hread, Drained.decoded, hrem, Cursor.remaining_after hrem]
        simp
      · -- nothing was read although bytes remain, so the failure is reported
        have hrem : c.remaining ≠ [] := fun h => hend (hc.atEnd_iff.mpr h)
        simp [drain_of_error hread, Drained.decoded, Drained.instrs, hrem]

/-- **Reading a stream loses and invents nothing.**  Reading instructions until a reading fails
comes to an end, after at most one reading for each byte and the one that fails.  The bytes are
the encodings of what was read, all of it canonical, and a proper part, which may be empty, from
the front of one more encoding.  The cursor stays inside the buffer, and the failing reading
leaves it in that part, behind the fields that are there as a whole.  Reading a whole buffer
gives the same, and reports a failure exactly if something is left over. -/
theorem stream_decoding_exact (bytes : List UInt8) :
    ∃ d rest, drain (.ofList bytes) = d ∧
      d.calls ≤ bytes.length + 1 ∧
      bytes = d.instrs.flatMap encode ++ rest ∧ (∀ i ∈ d.instrs, i.Canonical) ∧
      (∀ entry ∈ d.done, entry.2 ≤ bytes.length) ∧ d.last.pos ≤ bytes.length ∧
      (∃ (i : Instr) (size : Nat), rest <+: i.encode ∧ rest ≠ i.encode ∧
        CutOff i.fields rest size ∧
        d.last = ⟨bytes.toArray, (d.instrs.flatMap encode).length + size⟩) ∧
      readAll (.ofList bytes) =
        ⟨d.done.toArray, d.last, if rest = [] then none else some .endOfCode⟩ := by
  have hstart := Cursor.inBounds_ofList bytes
  obtain ⟨rest, i, size, hsplit, hcut, hlast⟩ := drain_spec hstart
  rw [Cursor.remaining_ofList] at hsplit
  have hlength := congrArg List.length hsplit
  rw [List.length_append] at hlength
  have hend : (drain (.ofList bytes)).last =
      ⟨bytes.toArray, ((drain (.ofList bytes)).instrs.flatMap encode).length + size⟩ := by
    rw [hlast]
    simp [Cursor.advance, Cursor.ofList]
  refine ⟨_, rest, rfl, ?_, hsplit, ?_, ?_, ?_, ⟨i, size, ?_, ?_, hcut, hend⟩, ?_⟩
  · have hcount := length_le_encodings (drain (.ofList bytes)).instrs
    rw [Drained.calls]
    omega
  · intro j hj
    exact canonical_of_mem_drain hj
  · intro entry hentry
    exact pos_le_of_mem_drain hentry
  · have hsize := hcut.size_le
    rw [hend]
    dsimp only
    omega
  · rw [← flatten_fields]
    exact hcut.isPrefix
  · rw [← flatten_fields]
    exact hcut.ne_flatten
  · have hall : bytes = (drain (.ofList bytes)).instrs.flatMap encode ↔ rest = [] := by
      constructor
      · intro heq
        have hsame := congrArg List.length heq
        exact List.length_eq_zero_iff.mp (by omega)
      · intro hrest
        rwa [hrest, List.append_nil] at hsplit
    rw [readAll, readUpTo_eq hstart (Nat.sub_le _ _), Cursor.remaining_ofList, Drained.decoded]
    simp [hall]

/-- A `halt` and the start of a `setRegister`, of which two bytes of the immediate are there:
the second reading takes opcode and register. -/
theorem stream_decoding_exact_sample :
    drain (.ofList [0x01, 0x11, 2, 5, 0]) =
        ⟨[(.halt, 1)], ⟨#[0x01, 0x11, 2, 5, 0], 3⟩⟩ ∧
      1 ≤ [0x01, 0x11, 2, 5, 0].length ∧
      ∃ i : Instr, [0x11, 2, 5, 0] <+: i.encode ∧ CutOff i.fields [0x11, 2, 5, 0] 2 := by
  have hfirst : read (.ofList [0x01, 0x11, 2, 5, 0]) =
      .ok .halt ⟨#[0x01, 0x11, 2, 5, 0], 1⟩ := rfl
  have hsecond : read ⟨#[0x01, 0x11, 2, 5, 0], 1⟩ =
      .error .endOfCode ⟨#[0x01, 0x11, 2, 5, 0], 3⟩ := rfl
  have hdrain : drain (.ofList [0x01, 0x11, 2, 5, 0]) =
      ⟨[(.halt, 1)], ⟨#[0x01, 0x11, 2, 5, 0], 3⟩⟩ := by
    rw [drain_of_ok hfirst, drain_of_error hsecond]
    rfl
  obtain ⟨_, rest, rfl, -, hbytes, -, hpos, -, ⟨i, size, hfront, -, hcut, hlast⟩, -⟩ :=
    stream_decoding_exact [0x01, 0x11, 2, 5, 0]
  rw [hdrain] at hbytes hpos hlast
  have hbytes' : [0x01] ++ [0x11, 2, 5, 0] = [0x01] ++ rest := hbytes
  obtain rfl : [0x11, 2, 5, 0] = rest := List.append_cancel_left hbytes'
  obtain rfl : 2 = size := by
    have hsize := congrArg Cursor.pos hlast
    exact Nat.add_left_cancel hsize
  exact ⟨hdrain, hpos (.halt, 1) (by simp), i, hfront, hcut⟩

end Accumulator.Instr
