/-
  Accumulator/Proofs/Access.lean
  ==============================
  **Which accesses to memory succeed.**

  A write depends on where it starts and on where it ends: at an address of the data
  segment it is refused as read-only, elsewhere it succeeds if it ends inside the mutable
  region.  A read succeeds if one region has all its bytes; it is not enough that every
  byte is mapped, since the regions may touch.  All sums are sums of natural numbers, so
  an access near the last address does not wrap around to the first.

  `write_cases` and `read_cases` say this of the two primitives.  Every access is one of
  them, apart from a copy whose source is not in the data segment, which is refused for
  its source.  The accesses are taken as computations on a context, where a refused access
  leaves the context as it was.
-/
import Accumulator.Proofs.Literal

namespace Accumulator

/-! ### The primitives -/

namespace Memory

/-- An address of the mutable region. -/
def IsMutable (m : Memory) (x : Nat) : Prop := x < m.capacity

/-- An address of the mapped data segment. -/
def IsReadOnly (m : Memory) (x : Nat) : Prop :=
  rodataBase ≤ x ∧ x < rodataBase + m.rodata.size

/-- One region has all of the `n` bytes from `a` on. -/
def InOneRegion (m : Memory) (a n : Nat) : Prop :=
  (∀ x, a ≤ x → x < a + n → m.IsMutable x) ∨ ∀ x, a ≤ x → x < a + n → m.IsReadOnly x

variable {m : Memory} {addr : UInt32}

theorem isRodata_iff : m.isRodata addr = true ↔ m.IsReadOnly addr.toNat := by
  simp only [isRodata, IsReadOnly, Bool.and_eq_true, decide_eq_true_eq]
  omega

theorem inOneRegion_iff {a n : Nat} (hn : 0 < n) :
    m.InOneRegion a n ↔
      a + n ≤ m.capacity ∨ rodataBase ≤ a ∧ a + n ≤ rodataBase + m.rodata.size := by
  unfold InOneRegion IsMutable IsReadOnly
  constructor
  · rintro (hmutable | hreadOnly)
    · have hlast := hmutable (a + n - 1) (by omega) (by omega)
      omega
    · have hfirst := hreadOnly a (by omega) (by omega)
      have hlast := hreadOnly (a + n - 1) (by omega) (by omega)
      omega
  · rintro (hmutable | hreadOnly)
    · exact .inl fun x _ _ => by omega
    · exact .inr fun x _ _ => by omega

/-- The three ends of a write. -/
theorem write_cases (m : Memory) (addr : UInt32) (bytes : List UInt8) :
    (m.IsReadOnly addr.toNat ∧ m.write addr bytes = .error (.readOnlyViolation addr)) ∨
    (¬ m.IsReadOnly addr.toNat ∧ addr.toNat + bytes.length ≤ m.capacity ∧
      m.write addr bytes = .ok (m.stored addr.toNat bytes)) ∨
    (¬ m.IsReadOnly addr.toNat ∧ m.capacity < addr.toNat + bytes.length ∧
      m.write addr bytes = .error (.outOfBounds addr)) := by
  unfold write
  by_cases hreadOnly : m.IsReadOnly addr.toNat
  · exact .inl ⟨hreadOnly, if_pos (isRodata_iff.mpr hreadOnly)⟩
  · rw [if_neg (mt isRodata_iff.mp hreadOnly)]
    by_cases hfits : addr.toNat + bytes.length ≤ m.capacity
    · exact .inr (.inl ⟨hreadOnly, hfits, if_pos hfits⟩)
    · exact .inr (.inr ⟨hreadOnly, Nat.not_le.mp hfits, if_neg hfits⟩)

theorem read_of_room {n room : Nat} (h : m.room addr = .ok room) :
    m.read addr n =
      if n ≤ room then .ok (m.slice addr.toNat n) else .error (.outOfBounds addr) := by
  unfold read
  rw [h]
  rfl

/-- The two ends of a read. -/
theorem read_cases (m : Memory) (addr : UInt32) {n : Nat} (hn : 0 < n) :
    (m.InOneRegion addr.toNat n ∧ m.read addr n = .ok (m.slice addr.toNat n)) ∨
    (¬ m.InOneRegion addr.toNat n ∧ m.read addr n = .error (.outOfBounds addr)) := by
  have hcapacity := m.capacity_le
  rw [inOneRegion_iff hn]
  by_cases hmutable : addr.toNat < m.capacity
  · rw [read_of_room (room_ram hmutable)]
    by_cases hfits : n ≤ m.capacity - addr.toNat
    · exact .inl ⟨by omega, if_pos hfits⟩
    · exact .inr ⟨by omega, if_neg hfits⟩
  by_cases hreadOnly : m.IsReadOnly addr.toNat
  · obtain ⟨offset, haddr⟩ := Nat.exists_eq_add_of_le hreadOnly.1
    have hoffset : offset < m.rodata.size := by
      have hlt := hreadOnly.2
      omega
    rw [read_of_room (room_rodata haddr hoffset)]
    by_cases hfits : n ≤ m.rodata.size - offset
    · exact .inl ⟨by omega, if_pos hfits⟩
    · exact .inr ⟨by omega, if_neg hfits⟩
  · have hroom : m.room addr = .error (.outOfBounds addr) := by
      rw [room, if_neg hmutable, if_neg (mt isRodata_iff.mp hreadOnly)]
    have hread : m.read addr n = .error (.outOfBounds addr) :=
      Outcome.bind_eq_error_iff.mpr (.inl hroom)
    refine .inr ⟨?_, hread⟩
    unfold IsReadOnly at hreadOnly
    omega

end Memory

/-! ### Accesses -/

namespace Exec

variable {H α : Type}

/-- A write of `n` bytes at `addr`: what it comes to, and that only a write that succeeds
changes anything. -/
structure ClassifiesWrite (access : Exec H Unit) (addr : UInt32) (n : Nat) (ctx : Context H) :
    Prop where
  readOnly : access ctx = .error (.readOnlyViolation addr) ctx ↔
    ctx.memory.IsReadOnly addr.toNat
  succeeds : (∃ memory, access ctx = .ok () { ctx with memory }) ↔
    ¬ ctx.memory.IsReadOnly addr.toNat ∧ addr.toNat + n ≤ ctx.memory.capacity
  outOfBounds : access ctx = .error (.outOfBounds addr) ctx ↔
    ¬ ctx.memory.IsReadOnly addr.toNat ∧ ctx.memory.capacity < addr.toNat + n
  unchanged : ∀ {fault ctx'}, access ctx = .error fault ctx' → ctx' = ctx

/-- A read of `n` bytes at `addr`: what it comes to, and that it changes nothing. -/
structure ClassifiesRead (access : Exec H α) (addr : UInt32) (n : Nat) (ctx : Context H) :
    Prop where
  succeeds : (∃ v, access ctx = .ok v ctx) ↔ ctx.memory.InOneRegion addr.toNat n
  outOfBounds : access ctx = .error (.outOfBounds addr) ctx ↔
    ¬ ctx.memory.InOneRegion addr.toNat n
  unchanged : ∀ {fault ctx'}, access ctx = .error fault ctx' → ctx' = ctx

variable {ctx : Context H} {addr : UInt32}

theorem store_of_eq_ok {f : Memory → Except Fault Memory} {memory : Memory}
    (h : f ctx.memory = .ok memory) : store f ctx = .ok () { ctx with memory } := by
  simp only [store, ask_bind, h]
  rfl

theorem store_of_eq_error {f : Memory → Except Fault Memory} {fault : Fault}
    (h : f ctx.memory = .error fault) : store f ctx = .error fault ctx := by
  simp only [store, ask_bind, h]

theorem classifiesWrite_store {f : Memory → Except Fault Memory} {bytes : List UInt8} {n : Nat}
    (hf : f ctx.memory = ctx.memory.write addr bytes) (hn : bytes.length = n) :
    ClassifiesWrite (store f) addr n ctx := by
  rcases ctx.memory.write_cases addr bytes with
    ⟨hreadOnly, hwrite⟩ | ⟨hreadOnly, hfits, hwrite⟩ | ⟨hreadOnly, hfits, hwrite⟩
  · have hrun := store_of_eq_error (hf.trans hwrite)
    constructor <;> simp [hrun, hreadOnly, eq_comm]
  · have hrun := store_of_eq_ok (hf.trans hwrite)
    rw [hn] at hfits
    constructor <;> simp [hrun, hreadOnly, hfits, Nat.not_lt_of_le hfits]
  · have hrun := store_of_eq_error (hf.trans hwrite)
    rw [hn] at hfits
    constructor <;> simp [hrun, hreadOnly, hfits, Nat.not_le_of_lt hfits, eq_comm]

theorem classifiesRead_load {f : Memory → Except Fault α} {g : List UInt8 → α} {n : Nat}
    (hn : 0 < n) (hf : f ctx.memory = (ctx.memory.read addr n).map g) :
    ClassifiesRead (load f) addr n ctx := by
  rcases ctx.memory.read_cases addr hn with ⟨hregion, hread⟩ | ⟨hregion, hread⟩
  · rw [hread] at hf
    constructor <;> simp [load, ask, hf, Except.map, hregion]
  · rw [hread] at hf
    constructor <;> simp [load, ask, hf, Except.map, hregion, eq_comm]

/-- **Accesses are classified.**  Bytes, words and literals of the data segment are written as
`ClassifiesWrite` says for their number of bytes, and bytes and words are read as
`ClassifiesRead` says; a copy from outside the data segment is refused for its source, wherever
it goes. -/
theorem access_classified (ctx : Context H) (addr : UInt32) :
    (∀ v, ClassifiesWrite (store fun m => m.writeByte addr v) addr 1 ctx) ∧
    (∀ v, ClassifiesWrite (store fun m => m.writeWord addr v) addr 4 ctx) ∧
    (∀ src : DataRef, src.stop ≤ ctx.memory.rodata.size →
      ClassifiesWrite (store fun m => m.copyLiteral src addr) addr src.length.toNat ctx) ∧
    (∀ src : DataRef, ctx.memory.rodata.size < src.stop →
      store (fun m => m.copyLiteral src addr) ctx = .error (.outOfBounds src.address) ctx) ∧
    ClassifiesRead (load fun m => m.readByte addr) addr 1 ctx ∧
    ClassifiesRead (load fun m => m.readWord addr) addr 4 ctx := by
  refine ⟨fun v => ?_, fun v => ?_, fun src hsource => ?_, fun src hsource => ?_, ?_, ?_⟩
  · exact classifiesWrite_store rfl rfl
  · exact classifiesWrite_store rfl (Word.length_toBytes 4 _)
  · refine classifiesWrite_store (Memory.copyLiteral_eq_write hsource) ?_
    rw [Array.length_toList, Array.size_extract, Nat.min_eq_left hsource]
    exact Nat.add_sub_cancel_left src.start src.length.toNat
  · exact store_of_eq_error (if_neg (Nat.not_le_of_lt hsource))
  · exact classifiesRead_load (by decide) rfl
  · exact classifiesRead_load (by decide) rfl

/-- A context in which the mutable region ends where the data segment begins. -/
def touching : Context Unit := ⟨{}, Memory.ofSize rodataBase #[1, 2, 3], ()⟩

/-- Where the regions touch, a word across the seam is not read although all its bytes are mapped,
and even a copy of no bytes to the first read-only address is refused.  A word at the end of the
addresses does not wrap around. -/
theorem access_classified_touching :
    load (fun m => m.readWord 0x3ffffffe) touching =
      .error (.outOfBounds 0x3ffffffe) touching ∧
    store (fun m => m.copyLiteral ⟨3, 0⟩ 0x40000000) touching =
      .error (.readOnlyViolation 0x40000000) touching ∧
    store (fun m => m.writeWord 0xfffffffe 7) touching =
      .error (.outOfBounds 0xfffffffe) touching := by
  obtain ⟨-, -, -, -, -, hread⟩ := access_classified touching 0x3ffffffe
  obtain ⟨-, -, hcopy, -⟩ := access_classified touching 0x40000000
  obtain ⟨-, hwrite, -⟩ := access_classified touching 0xfffffffe
  refine ⟨hread.outOfBounds.mpr ?_, (hcopy ⟨3, 0⟩ (by decide)).readOnly.mpr ?_,
    (hwrite 7).outOfBounds.mpr ⟨?_, by decide⟩⟩
  · rw [Memory.inOneRegion_iff (by decide)]
    decide
  · exact ⟨by decide, by decide⟩
  · exact fun h => absurd h.2 (by decide)

end Exec

end Accumulator
