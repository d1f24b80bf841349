/-
  Accumulator/Proofs/Bytecode.lean
  ================================
  **Readers and the byte strings they accept.**

  `Reader.Accepts r F` says what a reader does on every cursor inside its buffer: it
  gives `a` exactly when the bytes that remain start with some `bs` that `F` relates
  to `a`, and it then leaves the cursor just past `bs`.  The equivalence carries both
  halves of a codec at once.  Read from left to right nothing is dropped or
  normalised on the way in, read from right to left everything written is found again.

  Accepting composes: `Accepts.bind` concatenates the byte strings of two readers one
  after the other, so a reader built from others needs no induction over bytes.
  `accepts_read` is where this leads for a single instruction, and `accepts_readCode`
  for a counted row of them: the accepted byte strings are the encodings of canonical
  instructions and nothing else.
-/
import Mathlib.Algebra.Group.Nat.Defs
import Accumulator.Program.Image
import Accumulator.Proofs.Form

namespace Accumulator

/-! ### Words of a fixed width -/

theorem Word.ofBytes_lt (bytes : List UInt8) : Word.ofBytes bytes < 256 ^ bytes.length := by
  induction bytes with
  | nil => simp
  | cons b bytes ih =>
    have hb : b.toNat < 256 := b.toNat_lt
    rw [Word.ofBytes_cons, List.length_cons, Nat.pow_succ]
    omega

/-- Two bytes make a 16-bit word exactly when they are its two digits. -/
theorem Word.ofBytes_two_iff {bs : List UInt8} {w : UInt16} :
    (bs.length = 2 ∧ UInt16.ofNat (Word.ofBytes bs) = w) ↔ bs = Word.toBytes 2 w.toNat := by
  constructor
  · intro h
    obtain ⟨hlen, rfl⟩ := h
    have hlt : Word.ofBytes bs < 65536 := by
      have hlt := Word.ofBytes_lt bs
      rwa [hlen] at hlt
    rw [UInt16.toNat_ofNat_of_lt' hlt, ← hlen, Word.toBytes_ofBytes]
  · intro h
    subst h
    refine ⟨Word.length_toBytes 2 _, ?_⟩
    rw [Word.ofBytes_toBytes_two w.toNat_lt, UInt16.ofNat_toNat]

/-- Four bytes make a 32-bit word exactly when they are its four digits. -/
theorem Word.ofBytes_four_iff {bs : List UInt8} {w : UInt32} :
    (bs.length = 4 ∧ UInt32.ofNat (Word.ofBytes bs) = w) ↔ bs = Word.toBytes 4 w.toNat := by
  constructor
  · intro h
    obtain ⟨hlen, rfl⟩ := h
    have hlt : Word.ofBytes bs < 4294967296 := by
      have hlt := Word.ofBytes_lt bs
      rwa [hlen] at hlt
    rw [UInt32.toNat_ofNat_of_lt' hlt, ← hlen, Word.toBytes_ofBytes]
  · intro h
    subst h
    refine ⟨Word.length_toBytes 4 _, ?_⟩
    rw [Word.ofBytes_toBytes_four w.toNat_lt, UInt32.ofNat_toNat]

/-! ### Moving a cursor -/

namespace Cursor

/-- The cursor `n` bytes further on. -/
def advance (c : Cursor) (n : Nat) : Cursor := { c with pos := c.pos + n }

/-- The position lies inside the buffer or just past it. -/
def InBounds (c : Cursor) : Prop := c.pos ≤ c.bytes.size

theorem inBounds_ofList (bs : List UInt8) : (ofList bs).InBounds := Nat.zero_le _

@[simp] theorem advance_advance (c : Cursor) (m n : Nat) :
    (c.advance m).advance n = c.advance (m + n) := by
  simp only [advance, Nat.add_assoc]

theorem remaining_after {c : Cursor} {bs rest : List UInt8} (h : c.remaining = bs ++ rest) :
    (c.advance bs.length).remaining = rest :=
  remaining_advance h

theorem InBounds.advance {c : Cursor} (hc : c.InBounds) {bs rest : List UInt8}
    (h : c.remaining = bs ++ rest) : (c.advance bs.length).InBounds := by
  have hlen := c.length_remaining
  rw [h, List.length_append] at hlen
  unfold InBounds at hc ⊢
  simp only [Cursor.advance]
  omega

theorem InBounds.atEnd_iff {c : Cursor} (hc : c.InBounds) : c.atEnd = true ↔ c.remaining = [] := by
  have hlen := c.length_remaining
  unfold InBounds at hc
  rw [← List.length_eq_zero_iff, atEnd, decide_eq_true_eq]
  omega

end Cursor

/-! ### Accepting -/

namespace Reader

variable {α β : Type}

/-- The reader gives `a` exactly on the byte strings that `F` relates to `a`, and consumes
them. -/
def Accepts (r : Reader α) (F : α → List UInt8 → Prop) : Prop :=
  ∀ c : Cursor, c.InBounds → ∀ a c', r c = .ok a c' ↔
    ∃ bs rest, F a bs ∧ c.remaining = bs ++ rest ∧ c' = c.advance bs.length

theorem Accepts.congr {r : Reader α} {F G : α → List UInt8 → Prop} (h : Accepts r F)
    (heq : ∀ a bs, F a bs ↔ G a bs) : Accepts r G := by
  have hFG : F = G := by
    funext a bs
    exact propext (heq a bs)
  rw [← hFG]
  exact h

theorem accepts_pure (a : α) : Accepts (pure a) fun b bs => b = a ∧ bs = [] := by
  intro c _ b c'
  constructor
  · intro h
    cases h
    exact ⟨[], c.remaining, ⟨rfl, rfl⟩, rfl, rfl⟩
  · intro h
    obtain ⟨bs, rest, ⟨rfl, rfl⟩, -, rfl⟩ := h
    rfl

theorem bind_eq_ok_iff {r : Reader α} {k : α → Reader β} {c c' : Cursor} {b : β} :
    (r >>= k) c = .ok b c' ↔ ∃ a mid, r c = .ok a mid ∧ k a mid = .ok b c' := by
  simp only [bind, EStateM.bind]
  cases hr : r c with
  | ok a mid =>
    constructor
    · intro h
      exact ⟨a, mid, rfl, h⟩
    · intro h
      obtain ⟨a', mid', heq, h⟩ := h
      cases heq
      exact h
  | error e mid =>
    constructor
    · intro h
      cases h
    · intro h
      obtain ⟨a', mid', heq, -⟩ := h
      cases heq

/-- A reader followed by another accepts the byte strings of both, one after the other. -/
theorem Accepts.bind {r : Reader α} {k : α → Reader β} {F : α → List UInt8 → Prop}
    {G : α → β → List UInt8 → Prop} (hr : Accepts r F) (hk : ∀ a, Accepts (k a) (G a)) :
    Accepts (r >>= k) fun b bs => ∃ a front back, F a front ∧ G a b back ∧ bs = front ++ back := by
  intro c hc b c'
  rw [bind_eq_ok_iff]
  constructor
  · intro h
    obtain ⟨a, mid, hread, hnext⟩ := h
    obtain ⟨front, rest, hF, hrem, rfl⟩ := (hr c hc a mid).mp hread
    obtain ⟨back, rest', hG, hrem', rfl⟩ := (hk a _ (hc.advance hrem) b c').mp hnext
    have hrest := Cursor.remaining_after hrem
    refine ⟨front ++ back, rest', ⟨a, front, back, hF, hG, rfl⟩, ?_, ?_⟩
    · rw [hrem, ← hrest, hrem', List.append_assoc]
    · rw [Cursor.advance_advance, List.length_append]
  · intro h
    obtain ⟨_, rest, ⟨a, front, back, hF, hG, rfl⟩, hrem, rfl⟩ := h
    rw [List.append_assoc] at hrem
    have hrest := Cursor.remaining_after hrem
    refine ⟨a, c.advance front.length, ?_, ?_⟩
    · exact (hr c hc a _).mpr ⟨front, back ++ rest, hF, hrem, rfl⟩
    · refine (hk a _ (hc.advance hrem) b _).mpr ⟨back, rest, hG, hrest, ?_⟩
      rw [Cursor.advance_advance, List.length_append]

/-- Changing the result of a reader keeps the byte strings it accepts. -/
theorem Accepts.map {r : Reader α} {F : α → List UInt8 → Prop} (hr : Accepts r F) (f : α → β) :
    Accepts (r >>= fun a => pure (f a)) fun b bs => ∃ a, F a bs ∧ b = f a := by
  refine (hr.bind fun a => accepts_pure (f a)).congr ?_
  intro b bs
  constructor
  · intro h
    obtain ⟨a, front, back, hF, ⟨hb, rfl⟩, rfl⟩ := h
    rw [List.append_nil]
    exact ⟨a, hF, hb⟩
  · intro h
    obtain ⟨a, hF, hb⟩ := h
    exact ⟨a, bs, [], hF, ⟨hb, rfl⟩, (List.append_nil bs).symm⟩

/-! ### The primitive readers -/

theorem accepts_take (n : Nat) : Accepts (take n) fun a bs => bs.length = n ∧ a = bs := by
  intro c hc a c'
  constructor
  · intro h
    unfold take at h
    split at h
    · rename_i hfit
      cases h
      have hsplit : c.remaining = c.remaining.take n ++ c.remaining.drop n :=
        (List.take_append_drop n c.remaining).symm
      have hlen : (c.remaining.take n).length = n := by
        rw [List.length_take, c.length_remaining]
        omega
      have htake : take n c = .ok (c.remaining.take n) (c.advance n) := by
        have h := take_of_remaining hsplit hc
        rwa [hlen] at h
      rw [take, if_pos hfit] at htake
      injection htake with hbytes _
      exact ⟨c.remaining.take n, c.remaining.drop n, ⟨hlen, hbytes⟩, hsplit, by rw [hlen]; rfl⟩
    · cases h
  · intro h
    obtain ⟨bs, rest, ⟨rfl, rfl⟩, hrem, rfl⟩ := h
    exact take_of_remaining hrem hc

theorem accepts_byte : Accepts byte fun b bs => bs = [b] := by
  refine ((accepts_take 1).map fun bs => UInt8.ofNat (Word.ofBytes bs)).congr ?_
  intro b bs
  constructor
  · intro h
    obtain ⟨_, ⟨hlen, rfl⟩, rfl⟩ := h
    obtain ⟨x, rfl⟩ := List.length_eq_one_iff.mp hlen
    simp
  · intro h
    subst h
    exact ⟨[b], ⟨rfl, rfl⟩, by simp⟩

theorem accepts_word16 : Accepts word16 fun w bs => bs = Word.toBytes 2 w.toNat := by
  refine ((accepts_take 2).map fun bs => UInt16.ofNat (Word.ofBytes bs)).congr ?_
  intro w bs
  rw [← Word.ofBytes_two_iff]
  constructor
  · intro h
    obtain ⟨_, ⟨hlen, rfl⟩, rfl⟩ := h
    exact ⟨hlen, rfl⟩
  · intro h
    obtain ⟨hlen, rfl⟩ := h
    exact ⟨bs, ⟨hlen, rfl⟩, rfl⟩

theorem accepts_word32 : Accepts word32 fun w bs => bs = Word.toBytes 4 w.toNat := by
  refine ((accepts_take 4).map fun bs => UInt32.ofNat (Word.ofBytes bs)).congr ?_
  intro w bs
  rw [← Word.ofBytes_four_iff]
  constructor
  · intro h
    obtain ⟨_, ⟨hlen, rfl⟩, rfl⟩ := h
    exact ⟨hlen, rfl⟩
  · intro h
    obtain ⟨hlen, rfl⟩ := h
    exact ⟨bs, ⟨hlen, rfl⟩, rfl⟩

end Reader

/-! ### Instructions -/

open Reader

theorem Form.accepts_read (form : Form) :
    Accepts form.read fun i bs =>
      ∃ operands, form.Makes operands i ∧ bs = operands.flatMap Operand.encode := by
  cases form with
  | plain instr =>
    refine (accepts_pure instr).congr ?_
    intro i bs
    constructor
    · intro h
      obtain ⟨rfl, rfl⟩ := h
      exact ⟨[], .plain i, rfl⟩
    · intro h
      obtain ⟨_, hmakes, rfl⟩ := h
      cases hmakes with
      | plain => exact ⟨rfl, rfl⟩
  | target make =>
    refine (accepts_word16.map make).congr ?_
    intro i bs
    constructor
    · intro h
      obtain ⟨pos, rfl, rfl⟩ := h
      exact ⟨_, .target make pos, by simp [Operand.encode]⟩
    · intro h
      obtain ⟨_, hmakes, rfl⟩ := h
      cases hmakes with
      | target _ pos => exact ⟨pos, by simp [Operand.encode], rfl⟩
  | immediate make =>
    refine (accepts_word32.map fun w => make w.toInt32).congr ?_
    intro i bs
    constructor
    · intro h
      obtain ⟨w, rfl, rfl⟩ := h
      exact ⟨_, .immediate make w.toInt32, by simp [Operand.encode]⟩
    · intro h
      obtain ⟨_, hmakes, rfl⟩ := h
      cases hmakes with
      | immediate _ val => exact ⟨val.toUInt32, by simp [Operand.encode], by simp⟩
  | register make =>
    refine (accepts_byte.map make).congr ?_
    intro i bs
    constructor
    · intro h
      obtain ⟨reg, rfl, rfl⟩ := h
      exact ⟨_, .register make reg, rfl⟩
    · intro h
      obtain ⟨_, hmakes, rfl⟩ := h
      cases hmakes with
      | register _ reg => exact ⟨reg, rfl, rfl⟩
  | registerImmediate make =>
    refine (accepts_byte.bind fun reg => accepts_word32.map fun w => make reg w.toInt32).congr ?_
    intro i bs
    constructor
    · intro h
      obtain ⟨reg, _, _, rfl, ⟨w, rfl, rfl⟩, rfl⟩ := h
      exact ⟨_, .registerImmediate make reg w.toInt32, by simp [Operand.encode]⟩
    · intro h
      obtain ⟨_, hmakes, rfl⟩ := h
      cases hmakes with
      | registerImmediate _ reg val => exact ⟨reg, _, _, rfl, ⟨val.toUInt32, rfl, by simp⟩, by simp [Operand.encode]⟩
  | address make =>
    refine (accepts_word32.map make).congr ?_
    intro i bs
    constructor
    · intro h
      obtain ⟨addr, rfl, rfl⟩ := h
      exact ⟨_, .address make addr, by simp [Operand.encode]⟩
    · intro h
      obtain ⟨_, hmakes, rfl⟩ := h
      cases hmakes with
      | address _ addr => exact ⟨addr, by simp [Operand.encode], rfl⟩
  | literal make =>
    refine (accepts_word16.bind fun offset =>
      accepts_word16.map fun length => make ⟨offset, length⟩).congr ?_
    intro i bs
    constructor
    · intro h
      obtain ⟨offset, _, _, rfl, ⟨length, rfl, rfl⟩, rfl⟩ := h
      exact ⟨_, .literal make ⟨offset, length⟩, by simp [Operand.encode]⟩
    · intro h
      obtain ⟨_, hmakes, rfl⟩ := h
      cases hmakes with
      | literal _ data => exact ⟨data.offset, _, _, rfl, ⟨data.length, rfl, rfl⟩, by simp [Operand.encode]⟩
  | number make =>
    refine (accepts_byte.map make).congr ?_
    intro i bs
    constructor
    · intro h
      obtain ⟨no, rfl, rfl⟩ := h
      exact ⟨_, .number make no, rfl⟩
    · intro h
      obtain ⟨_, hmakes, rfl⟩ := h
      cases hmakes with
      | number _ no => exact ⟨no, rfl, rfl⟩

/-- Reading an instruction accepts the encodings of canonical instructions and no other byte
string. -/
theorem Instr.accepts_read : Accepts Instr.read fun i bs => i.Canonical ∧ bs = i.encode := by
  refine (accepts_byte.bind fun op => (Form.ofOpcode op).accepts_read).congr ?_
  intro i bs
  constructor
  · intro h
    obtain ⟨op, _, _, rfl, ⟨operands, hmakes, rfl⟩, rfl⟩ := h
    refine ⟨hmakes.canonical, ?_⟩
    rw [Instr.encode, hmakes.opcode_eq, hmakes.encodeOperands_eq]
    rfl
  · intro h
    obtain ⟨hcanonical, rfl⟩ := h
    obtain ⟨operands, hmakes⟩ := Form.exists_makes_of_canonical hcanonical
    exact ⟨i.opcode, _, _, rfl, ⟨operands, hmakes, rfl⟩, by
      rw [Instr.encode, hmakes.encodeOperands_eq]
      rfl⟩

theorem Image.accepts_readCode (n : Nat) (done : Array Instr) :
    Accepts (Image.readCode n done) fun code bs => ∃ instrs : List Instr,
      instrs.length = n ∧ (∀ i ∈ instrs, i.Canonical) ∧ code = done ++ instrs ∧
        bs = instrs.flatMap Instr.encode := by
  induction n generalizing done with
  | zero =>
    refine (accepts_pure done).congr ?_
    intro code bs
    constructor
    · intro h
      obtain ⟨rfl, rfl⟩ := h
      exact ⟨[], rfl, by simp, by simp, rfl⟩
    · intro h
      obtain ⟨instrs, hlen, -, rfl, rfl⟩ := h
      obtain rfl := List.length_eq_zero_iff.mp hlen
      simp
  | succ n ih =>
    refine (Instr.accepts_read.bind fun i => ih (done.push i)).congr ?_
    intro code bs
    constructor
    · intro h
      obtain ⟨i, _, _, ⟨hi, rfl⟩, ⟨instrs, hlen, hall, rfl, rfl⟩, rfl⟩ := h
      refine ⟨i :: instrs, by simp [hlen], ?_, by simp, by simp⟩
      intro j hj
      rcases List.mem_cons.mp hj with rfl | hj
      · exact hi
      · exact hall j hj
    · intro h
      obtain ⟨instrs, hlen, hall, rfl, rfl⟩ := h
      obtain ⟨i, instrs, rfl⟩ := List.exists_cons_of_length_eq_add_one hlen
      refine ⟨i, _, _, ⟨hall i (by simp), rfl⟩, ⟨instrs, by simpa using hlen, ?_, ?_, rfl⟩, by simp⟩
      · intro j hj
        exact hall j (List.mem_cons_of_mem i hj)
      · simp

end Accumulator
