/-
  Accumulator/Proofs/Interleaving.lean
  ====================================
  **One position for reading and writing.**

  A cursor has a single position.  Reading takes bytes from it, writing appends at the end
  of the buffer, and both move it on.  `Cursor.Op` are the operations in which this can
  happen, in any order and whether they succeed or fail.

  An operation does one of two things (`Op.step`).  One that reads leaves the buffer as it
  is and stays inside it, since a reader takes whole fields that are there.  One that
  writes makes the buffer longer by as much as it moves the position.  Either way the
  position stays inside the buffer, and the buffer only grows at its end; this is the
  invariant of every row of operations (`inBounds_after`, `toList_bytes_after`).

  The lengths of reads are plain numbers here.  Computing the end of a read in 64-bit
  words comes to the same: where the sum wraps, the read would end behind every buffer
  (`Reader.slice_eq_take`).
-/
import Accumulator.Proofs.Fields

namespace Accumulator

open Reader

/-! ### Writing -/

namespace Cursor

@[simp] theorem write_nil (c : Cursor) : c.write [] = c := by
  simp [write]

@[simp] theorem pos_write (c : Cursor) (bs : List UInt8) :
    (c.write bs).pos = c.pos + bs.length := rfl

@[simp] theorem toList_bytes_write (c : Cursor) (bs : List UInt8) :
    (c.write bs).bytes.toList = c.bytes.toList ++ bs := by
  simp [write]

@[simp] theorem size_bytes_write (c : Cursor) (bs : List UInt8) :
    (c.write bs).bytes.size = c.bytes.size + bs.length := by
  rw [← Array.length_toList, toList_bytes_write, List.length_append, Array.length_toList]

theorem InBounds.write {c : Cursor} (hc : c.InBounds) (bs : List UInt8) :
    (c.write bs).InBounds := by
  unfold InBounds at hc ⊢
  rw [pos_write, size_bytes_write]
  exact Nat.add_le_add_right hc bs.length

theorem write_append (c : Cursor) (front back : List UInt8) :
    c.write (front ++ back) = (c.write front).write back := by
  have hbytes : c.bytes ++ (front ++ back) = c.bytes ++ front ++ back :=
    Array.toList_inj.mp (by simp)
  simp [write, hbytes, Nat.add_assoc]

end Cursor

/-- Appends bytes to the buffer, which never fails. -/
def Reader.put (bs : List UInt8) : Reader Unit := fun c => .ok () (c.write bs)

/-- Writes an instruction: its opcode byte, and then one field of its operands after the
other. -/
def Instr.write (i : Instr) : Reader Unit := forM i.fields Reader.put

theorem Reader.forM_put (fields : List (List UInt8)) (c : Cursor) :
    (forM fields put : Reader Unit) c = .ok () (c.write fields.flatten) := by
  induction fields generalizing c with
  | nil =>
    rw [List.flatten_nil, Cursor.write_nil]
    rfl
  | cons field fields ih =>
    have hput : put field c = .ok () (c.write field) := rfl
    rw [List.forM_cons, bind_of_ok hput, ih, List.flatten_cons, Cursor.write_append]

/-- All fields of an instruction together are its encoding. -/
theorem Instr.write_eq (i : Instr) (c : Cursor) : i.write c = .ok () (c.write i.encode) := by
  rw [Instr.write, forM_put, flatten_fields]

/-! ### Reading in 64-bit words -/

/-- The end of a read of `n` bytes as a 64-bit word, unless the sum wraps. -/
def Cursor.stop? (c : Cursor) (n : UInt64) : Option UInt64 :=
  if UInt64.ofNat c.pos + n < n then none else some (UInt64.ofNat c.pos + n)

/-- Reads the next `n` bytes, all of them or none, with the end of the read computed in 64-bit
words. -/
def Reader.slice (n : UInt64) : Reader (List UInt8) := fun c =>
  match c.stop? n with
  | none => .error .endOfCode c
  | some stop =>
    if stop.toNat ≤ c.bytes.size then
      .ok (c.bytes.extract c.pos stop.toNat).toList { c with pos := stop.toNat }
    else
      .error .endOfCode c

theorem Reader.slice_eq_take {c : Cursor} (hc : c.InBounds) (hsize : c.bytes.size < 2 ^ 64)
    (n : UInt64) : slice n c = take n.toNat c := by
  have hn := n.toNat_lt
  have hle : c.pos ≤ c.bytes.size := hc
  have hpos : (UInt64.ofNat c.pos).toNat = c.pos :=
    UInt64.toNat_ofNat_of_lt' (Nat.lt_of_le_of_lt hle hsize)
  have hsum := UInt64.toNat_add (UInt64.ofNat c.pos) n
  rw [hpos] at hsum
  by_cases hfits : c.pos + n.toNat < 2 ^ 64
  · rw [Nat.mod_eq_of_lt hfits] at hsum
    have hstop : c.stop? n = some (UInt64.ofNat c.pos + n) := by
      rw [Cursor.stop?, if_neg]
      rw [UInt64.lt_iff_toNat_lt]
      omega
    simp only [slice, take, hstop, hsum]
  · have hstop : c.stop? n = none := by
      rw [Cursor.stop?, if_pos]
      rw [UInt64.lt_iff_toNat_lt]
      omega
    have hbehind : ¬ c.pos + n.toNat ≤ c.bytes.size := by omega
    simp only [slice, take, hstop, if_neg hbehind]

/-! ### Operations -/

namespace Cursor

/-- An operation on a cursor that gives something of a type. -/
inductive Op : Type → Type 1 where
  | readByte : Op UInt8
  | readWord : Op UInt16
  /-- Reads `n` bytes and makes something of them. -/
  | readFixed {α : Type} (n : Nat) (make : List UInt8 → α) : Op α
  | readSlice (n : Nat) : Op (List UInt8)
  | readInstr : Op Instr
  | writeByte (b : UInt8) : Op Unit
  | writeWord (w : UInt16) : Op Unit
  | writeFixed (bs : List UInt8) : Op Unit
  | writeInstr (i : Instr) : Op Unit

namespace Op

variable {α : Type}

/-- Runs an operation. -/
def run : {α : Type} → Op α → Reader α
  | _, readByte => Reader.byte
  | _, readWord => Reader.word16
  | _, readFixed n make => do return make (← Reader.take n)
  | _, readSlice n => Reader.take n
  | _, readInstr => Instr.read
  | _, writeByte b => Reader.put [b]
  | _, writeWord w => Reader.put (Word.toBytes 2 w.toNat)
  | _, writeFixed bs => Reader.put bs
  | _, writeInstr i => i.write

/-- How many bytes a primitive read takes, and what it makes of them. -/
def taken? : {α : Type} → Op α → Option (Nat × (List UInt8 → α))
  | _, readByte => some (1, fun bs => bs.headD 0)
  | _, readWord => some (2, fun bs => UInt16.ofNat (Word.ofBytes bs))
  | _, readFixed n make => some (n, make)
  | _, readSlice n => some (n, id)
  | _, _ => none

/-- The bytes that an operation appends, if it is a write. -/
def written? : {α : Type} → Op α → Option (List UInt8)
  | _, writeByte b => some [b]
  | _, writeWord w => some (Word.toBytes 2 w.toNat)
  | _, writeFixed bs => some bs
  | _, writeInstr i => some i.encode
  | _, _ => none

/-- The cursor that an operation leaves, whether it succeeds or fails. -/
def leaves (op : Op α) (c : Cursor) : Cursor :=
  match op.run c with
  | .ok _ c' => c'
  | .error _ c' => c'

/-! ### One operation -/

theorem run_of_written? {op : Op α} {bs : List UInt8} (h : op.written? = some bs) (c : Cursor) :
    ∃ a, op.run c = .ok a (c.write bs) := by
  cases op with
  | readByte | readWord | readFixed | readSlice | readInstr => cases h
  | writeByte | writeWord | writeFixed =>
    cases h
    exact ⟨(), rfl⟩
  | writeInstr i =>
    cases h
    exact ⟨(), i.write_eq c⟩

theorem exists_parses {op : Op α} (h : op.written? = none) : ∃ F, Parses op.run F := by
  cases op with
  | readByte => exact ⟨_, parses_byte⟩
  | readWord => exact ⟨_, parses_word16⟩
  | readFixed n make => exact ⟨_, (parses_take n).map make⟩
  | readSlice n => exact ⟨_, parses_take n⟩
  | readInstr => exact ⟨_, Instr.parses_read⟩
  | writeByte | writeWord | writeFixed | writeInstr => cases h

theorem take_map_of_le (make : List UInt8 → α) {n : Nat} {c : Cursor}
    (h : c.pos + n ≤ c.bytes.size) :
    (Reader.take n >>= fun bs => pure (make bs)) c =
      .ok (make (c.bytes.extract c.pos (c.pos + n)).toList) (c.advance n) :=
  bind_of_ok (if_pos h)

theorem take_map_of_lt (make : List UInt8 → α) {n : Nat} {c : Cursor}
    (h : c.bytes.size < c.pos + n) :
    (Reader.take n >>= fun bs => pure (make bs)) c = .error .endOfCode c :=
  bind_of_error (if_neg (Nat.not_le_of_lt h))

/-- **A primitive read** gives what stands behind the position, or fails and changes nothing. -/
theorem run_of_taken? {op : Op α} {n : Nat} {make : List UInt8 → α}
    (h : op.taken? = some (n, make)) (c : Cursor) :
    (c.pos + n ≤ c.bytes.size →
      op.run c = .ok (make (c.bytes.extract c.pos (c.pos + n)).toList) (c.advance n)) ∧
    (c.bytes.size < c.pos + n → op.run c = .error .endOfCode c) := by
  cases op with
  | readByte =>
    cases h
    refine ⟨?_, take_map_of_lt _⟩
    intro hfit
    obtain ⟨b, hb⟩ : ∃ b, (c.bytes.extract c.pos (c.pos + 1)).toList = [b] := by
      apply List.length_eq_one_iff.mp
      rw [Array.length_toList, Array.size_extract]
      omega
    have hread := take_map_of_le (fun bs => UInt8.ofNat (Word.ofBytes bs)) hfit
    rw [hb] at hread ⊢
    simpa [run, Reader.byte] using hread
  | readWord =>
    cases h
    exact ⟨take_map_of_le _, take_map_of_lt _⟩
  | readFixed =>
    cases h
    exact ⟨take_map_of_le _, take_map_of_lt _⟩
  | readSlice =>
    cases h
    exact ⟨fun hfit => if_pos hfit, fun hlt => if_neg (Nat.not_le_of_lt hlt)⟩
  | readInstr | writeByte | writeWord | writeFixed | writeInstr => cases h

/-- **What an operation can do:** a read moves inside the buffer, a write appends to it. -/
theorem step (op : Op α) {c : Cursor} (hc : c.InBounds) :
    (op.written? = none ∧ ∃ n, op.leaves c = c.advance n ∧ (c.advance n).InBounds) ∨
    ∃ bs, op.written? = some bs ∧ op.leaves c = c.write bs := by
  rcases hwritten : op.written? with _ | bs
  · obtain ⟨F, hparses⟩ := exists_parses hwritten
    obtain ⟨n, hin, ⟨a, hread⟩ | hread⟩ := hparses.exists_advance hc
    · exact .inl ⟨rfl, n, by rw [leaves, hread], hin⟩
    · exact .inl ⟨rfl, n, by rw [leaves, hread], hin⟩
  · obtain ⟨a, hrun⟩ := run_of_written? hwritten c
    exact .inr ⟨bs, rfl, by rw [leaves, hrun]⟩

end Op

/-! ### A row of operations -/

/-- The cursor after a row of operations, some of which may fail. -/
def after (ops : List (Σ α, Op α)) (c : Cursor) : Cursor :=
  ops.foldl (fun c op => op.2.leaves c) c

theorem inBounds_after {c : Cursor} (hc : c.InBounds) (ops : List (Σ α, Op α)) :
    (after ops c).InBounds := by
  induction ops generalizing c with
  | nil => exact hc
  | cons op ops ih =>
    refine @ih (op.2.leaves c) ?_
    rcases op.2.step hc with ⟨-, n, hleaves, hin⟩ | ⟨bs, -, hleaves⟩
    · rwa [hleaves]
    · rw [hleaves]
      exact hc.write bs

/-- The buffer is what it was, with all that was written behind it. -/
theorem toList_bytes_after {c : Cursor} (hc : c.InBounds) (ops : List (Σ α, Op α)) :
    (after ops c).bytes.toList =
      c.bytes.toList ++ ops.flatMap fun op => op.2.written?.getD [] := by
  induction ops generalizing c with
  | nil => exact (List.append_nil _).symm
  | cons op ops ih =>
    rw [List.flatMap_cons, ← List.append_assoc]
    rcases op.2.step hc with ⟨hread, n, hleaves, hin⟩ | ⟨bs, hwrite, hleaves⟩
    · have hlater := ih hin
      rw [hread, Option.getD_none, List.append_nil, after, List.foldl_cons, hleaves]
      exact hlater
    · have hlater := ih (hc.write bs)
      rw [toList_bytes_write] at hlater
      rw [hwrite, Option.getD_some, after, List.foldl_cons, hleaves]
      exact hlater

/-- As long as there are only writes, a position at the end of the buffer stays there. -/
theorem pos_after_writes {c : Cursor} (hc : c.pos = c.bytes.size) {ops : List (Σ α, Op α)}
    (hops : ∀ op ∈ ops, op.2.written? ≠ none) : (after ops c).pos = (after ops c).bytes.size := by
  induction ops generalizing c with
  | nil => exact hc
  | cons op ops ih =>
    obtain ⟨bs, hwrite⟩ := Option.ne_none_iff_exists'.mp (hops op List.mem_cons_self)
    obtain ⟨a, hrun⟩ := Op.run_of_written? hwrite c
    have hleaves : op.2.leaves c = c.write bs := by rw [Op.leaves, hrun]
    rw [after, List.foldl_cons, hleaves]
    refine ih ?_ fun op' hop' => hops op' (List.mem_cons_of_mem op hop')
    rw [pos_write, size_bytes_write, hc]

/-- **Reads advance and writes append.**  After any row of operations on a cursor at the start
of any buffer, the position lies inside the buffer, so that the bytes that remain are what
stands behind as many bytes as the position says; the cursor is at the end exactly if none
remain; and the buffer is the one from the start with all that was written behind it.  Of the
next operation it holds that a primitive read of `n` bytes gives the `n` bytes behind the
position and moves it past them, or fails and changes nothing if there are not so many, also
where the end of the read does not fit a 64-bit word; that no read changes the buffer; and that
a write appends its bytes and moves the position on by their number.  On an empty buffer, if
there are only writes, the position is at the end throughout. -/
theorem reads_advance_writes_append (bytes : List UInt8) (ops : List (Σ α, Op α)) :
    ∃ c, after ops (.ofList bytes) = c ∧
      c.pos ≤ c.bytes.size ∧
      (∃ front, front.length = c.pos ∧ c.bytes.toList = front ++ c.remaining) ∧
      (c.atEnd = true ↔ c.remaining = []) ∧
      c.bytes.toList = bytes ++ ops.flatMap (fun op => op.2.written?.getD []) ∧
      (∀ (α : Type) (op : Op α) (n : Nat) (make : List UInt8 → α), op.taken? = some (n, make) →
        (c.pos + n ≤ c.bytes.size → op.run c =
          .ok (make (c.bytes.extract c.pos (c.pos + n)).toList) { c with pos := c.pos + n }) ∧
        (c.bytes.size < c.pos + n → op.run c = .error .endOfCode c)) ∧
      (c.bytes.size < 2 ^ 64 → ∀ n : UInt64, Reader.slice n c = Reader.take n.toNat c) ∧
      (∀ (α : Type) (op : Op α), op.written? = none → (op.leaves c).bytes = c.bytes) ∧
      (∀ (α : Type) (op : Op α) (bs : List UInt8), op.written? = some bs →
        ∃ a, op.run c = .ok a { bytes := c.bytes ++ bs, pos := c.pos + bs.length }) ∧
      (bytes = [] → (∀ op ∈ ops, op.2.written? ≠ none) → c.pos = c.bytes.size) := by
  have hstart := inBounds_ofList bytes
  have hin := inBounds_after hstart ops
  refine ⟨_, rfl, hin, ?_, hin.atEnd_iff, toList_bytes_after hstart ops, ?_, ?_, ?_, ?_, ?_⟩
  · refine ⟨(after ops (.ofList bytes)).bytes.toList.take (after ops (.ofList bytes)).pos, ?_, ?_⟩
    · rw [List.length_take, Array.length_toList]
      exact Nat.min_eq_left hin
    · exact (List.take_append_drop _ _).symm
  · intro α op n make htaken
    exact Op.run_of_taken? htaken _
  · intro hsize n
    exact slice_eq_take hin hsize n
  · intro α op hread
    rcases op.step hin with ⟨-, n, hleaves, -⟩ | ⟨bs, hwrite, -⟩
    · rw [hleaves]
      rfl
    · rw [hread] at hwrite
      cases hwrite
  · intro α op bs hwrite
    exact Op.run_of_written? hwrite _
  · rintro rfl hops
    exact pos_after_writes rfl hops

/-- A byte is read and one is written, which moves the position past a byte that was not read.
The next word lies behind it; five bytes are too many, and so are those up to the last 64-bit
position.  A jump written behind a byte leaves the position at the end. -/
theorem reads_advance_writes_append_sample :
    after [⟨_, .readByte⟩, ⟨_, .writeByte 9⟩] (.ofList [1, 2, 3, 4, 5]) =
        ⟨#[1, 2, 3, 4, 5, 9], 2⟩ ∧
      Op.readWord.run ⟨#[1, 2, 3, 4, 5, 9], 2⟩ = .ok 0x0403 ⟨#[1, 2, 3, 4, 5, 9], 4⟩ ∧
      (Op.readSlice 5).run ⟨#[1, 2, 3, 4, 5, 9], 2⟩ =
        .error .endOfCode ⟨#[1, 2, 3, 4, 5, 9], 2⟩ ∧
      Reader.slice 0xffffffffffffffff ⟨#[1, 2, 3, 4, 5, 9], 2⟩ =
        .error .endOfCode ⟨#[1, 2, 3, 4, 5, 9], 2⟩ ∧
      (after [⟨_, .writeByte 1⟩, ⟨_, .writeInstr (.jump 5)⟩] (.ofList [])).pos = 4 := by
  obtain ⟨c, hc, -, -, -, -, hreads, hwords, -⟩ :=
    reads_advance_writes_append [1, 2, 3, 4, 5] [⟨_, .readByte⟩, ⟨_, .writeByte 9⟩]
  obtain ⟨d, hd, -, -, -, hbytes, -, -, -, -, hend⟩ :=
    reads_advance_writes_append [] [⟨_, .writeByte 1⟩, ⟨_, .writeInstr (.jump 5)⟩]
  obtain rfl : ⟨#[1, 2, 3, 4, 5, 9], 2⟩ = c := hc
  refine ⟨rfl, ?_, ?_, ?_, ?_⟩
  · exact (hreads _ .readWord _ _ rfl).1 (by decide)
  · exact (hreads _ (.readSlice 5) _ _ rfl).2 (by decide)
  · rw [hwords (by decide)]
    exact (hreads _ (.readSlice (0xffffffffffffffff : UInt64).toNat) _ _ rfl).2 (by decide)
  · rw [hd, hend rfl (by simp [Op.written?]), ← Array.length_toList, hbytes]
    rfl

end Cursor

end Accumulator
