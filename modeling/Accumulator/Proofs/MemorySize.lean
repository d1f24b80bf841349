/-
  Accumulator/Proofs/MemorySize.lean
  ==================================
  **More memory changes no run that stayed inside its memory.**

  One memory extends another if it has the same data segment and a mutable region that
  begins with the bytes of the other and goes on with zeros (`Memory.Extends`).  Whatever
  succeeds on the smaller memory succeeds on the larger one and keeps it an extension: an
  access stays in the region it starts in, so it never gets to see where the larger region
  goes on, and the larger region still ends before the data segment begins.  The search
  for the end of a string is no exception, since it stops at a zero byte of the region.

  What fails on the smaller memory fails because it is out of bounds, or because it writes
  to the data segment, and then the larger memory refuses it as well.  So two machines
  that differ in the size of their memory are in lock step until the smaller one goes out
  of bounds.
-/
import Accumulator.Proofs.Limits

namespace Accumulator

namespace Memory

/-- The contents of the mutable region. -/
def ram (m : Memory) : List UInt8 := m.slice 0 m.capacity

/-- The data segment is the same, and the mutable region of `m'` is that of `m` followed by
zeros. -/
structure Extends (m m' : Memory) : Prop where
  capacity : m.capacity ≤ m'.capacity
  rodata : m'.rodata = m.rodata
  cell : ∀ a, m'.cell a = m.cell a
  cell_zero : ∀ a, m.capacity ≤ a → m.cell a = 0

variable {m m' : Memory}

theorem extends_ofSize {size size' : Nat} (h : size ≤ size') (rodata : Array UInt8) :
    Extends (ofSize size rodata) (ofSize size' rodata) where
  capacity := by simp only [ofSize]; omega
  rodata := rfl
  cell _ := rfl
  cell_zero a _ := by simp [cell, ofSize]

/-! ### Reading -/

namespace Extends

/-- An address of the small region or of the data segment holds the same byte in both. -/
theorem peek (h : Extends m m') {a : Nat} (ha : a < m.capacity ∨ rodataBase ≤ a) :
    m'.peek a = m.peek a := by
  unfold Memory.peek
  rcases ha with hlow | hhigh
  · rw [if_pos (Nat.lt_of_lt_of_le hlow h.capacity), if_pos hlow, h.cell]
  · have hout : ¬ a < m.capacity := Nat.not_lt.mpr (Nat.le_trans m.capacity_le hhigh)
    have hout' : ¬ a < m'.capacity := Nat.not_lt.mpr (Nat.le_trans m'.capacity_le hhigh)
    rw [if_neg hout, if_neg hout', h.rodata]

theorem isRodata (h : Extends m m') (addr : UInt32) : m'.isRodata addr = m.isRodata addr := by
  unfold Memory.isRodata
  rw [h.rodata]

/-- Where the small memory has room, the large one has at least as much, and the bytes of that
room are the same. -/
theorem room (h : Extends m m') {addr : UInt32} {n : Nat} (hroom : m.room addr = .ok n) :
    (∃ n', n ≤ n' ∧ m'.room addr = .ok n') ∧
      ∀ i < n, m'.peek (addr.toNat + i) = m.peek (addr.toNat + i) := by
  unfold Memory.room at hroom ⊢
  rw [h.isRodata, h.rodata]
  split at hroom
  · rename_i hlow
    cases hroom
    refine ⟨⟨m'.capacity - addr.toNat, ?_, ?_⟩, ?_⟩
    · exact Nat.sub_le_sub_right h.capacity _
    · rw [if_pos (Nat.lt_of_lt_of_le hlow h.capacity)]
    · intro i hi
      apply h.peek
      left
      omega
  · split at hroom
    · rename_i hrodata
      obtain rfl := Except.ok.inj hroom
      have hbase : rodataBase ≤ addr.toNat := by
        simp only [Memory.isRodata, Bool.and_eq_true, decide_eq_true_eq] at hrodata
        exact hrodata.1
      have hout : ¬ addr.toNat < m'.capacity :=
        Nat.not_lt.mpr (Nat.le_trans m'.capacity_le hbase)
      refine ⟨⟨_, Nat.le_refl _, ?_⟩, ?_⟩
      · rw [if_neg hout, if_pos hrodata]
      · intro i _
        apply h.peek
        right
        omega
    · cases hroom

end Extends

theorem slice_congr {a n : Nat} (h : ∀ i < n, m'.peek (a + i) = m.peek (a + i)) :
    m'.slice a n = m.slice a n := by
  unfold slice
  apply List.map_congr_left
  intro i hi
  exact h i (List.mem_range.mp hi)

theorem findZero_eq_some {a room room' seen n : Nat} (hroom : room ≤ room')
    (hpeek : ∀ i < seen + room, m'.peek (a + i) = m.peek (a + i))
    (h : m.findZero a room seen = some n) :
    m'.findZero a room' seen = some n ∧ n < seen + room := by
  induction room generalizing room' seen with
  | zero => cases h
  | succ room ih =>
    obtain ⟨room', rfl⟩ : ∃ r, room' = r + 1 := ⟨room' - 1, by omega⟩
    have hsame := hpeek seen (by omega)
    unfold findZero at h ⊢
    rw [hsame]
    split at h
    · rename_i hzero
      cases h
      exact ⟨if_pos hzero, by omega⟩
    · rename_i hzero
      rw [if_neg hzero]
      have hrest := ih (Nat.le_of_succ_le_succ hroom) (fun i hi => hpeek i (by omega)) h
      exact ⟨hrest.1, by omega⟩

namespace Extends

theorem read_eq_ok (h : Extends m m') {addr : UInt32} {n : Nat} {bytes : List UInt8}
    (hread : m.read addr n = .ok bytes) : m'.read addr n = .ok bytes := by
  unfold Memory.read at hread ⊢
  obtain ⟨room, hroom, hread⟩ := Outcome.bind_eq_ok_iff.mp hread
  obtain ⟨⟨room', hle, hroom'⟩, hpeek⟩ := h.room hroom
  split at hread
  · rename_i hfits
    cases hread
    refine Outcome.bind_eq_ok_iff.mpr ⟨room', hroom', ?_⟩
    rw [if_pos (Nat.le_trans hfits hle),
      slice_congr fun i hi => hpeek i (Nat.lt_of_lt_of_le hi hfits)]
    rfl
  · cases hread

theorem readString_eq_ok (h : Extends m m') {addr : UInt32} {bytes : List UInt8}
    (hread : m.readString addr = .ok bytes) : m'.readString addr = .ok bytes := by
  unfold Memory.readString at hread ⊢
  obtain ⟨room, hroom, hread⟩ := Outcome.bind_eq_ok_iff.mp hread
  obtain ⟨⟨room', hle, hroom'⟩, hpeek⟩ := h.room hroom
  split at hread
  · rename_i n hzero
    cases hread
    obtain ⟨hzero', hn⟩ := findZero_eq_some hle (fun i hi => hpeek i (by omega)) hzero
    refine Outcome.bind_eq_ok_iff.mpr ⟨room', hroom', ?_⟩
    have hsame : m'.slice addr.toNat n = m.slice addr.toNat n :=
      slice_congr fun i hi => hpeek i (by omega)
    simp only [hzero', hsame]
    rfl
  · cases hread

/-! ### Writing -/

theorem stored (h : Extends m m') {a : Nat} {bytes : List UInt8}
    (hfits : a + bytes.length ≤ m.capacity) :
    Extends (m.stored a bytes) (m'.stored a bytes) where
  capacity := h.capacity
  rodata := h.rodata
  cell k := by rw [cell_stored, cell_stored, h.cell]
  cell_zero k hk := by
    have hbeyond : bytes.length ≤ k - a := by
      change m.capacity ≤ k at hk
      omega
    have hkeep : bytes.getD (k - a) (m.cell k) = m.cell k := by
      rw [List.getD, List.getElem?_eq_none hbeyond, Option.getD_none]
    rw [cell_stored, hkeep, ite_self]
    exact h.cell_zero k hk

theorem write (h : Extends m m') (addr : UInt32) (bytes : List UInt8) :
    Agree (fun fault => ∃ a, fault = .outOfBounds a) (fun _ => False) Extends
      (m.write addr bytes) (m'.write addr bytes) := by
  unfold Memory.write
  rw [h.isRodata]
  split
  · exact .inl rfl
  · by_cases hfits : addr.toNat + bytes.length ≤ m.capacity
    · rw [if_pos hfits, if_pos (Nat.le_trans hfits h.capacity)]
      exact h.stored hfits
    · rw [if_neg hfits]
      apply Agree.of_ok
      · intro e he
        cases he
        exact ⟨addr, rfl⟩
      · intro x hx
        cases hx

/-! ### The whole region -/

theorem ram (h : Extends m m') :
    m'.ram = m.ram ++ List.replicate (m'.capacity - m.capacity) 0 := by
  apply List.ext_getElem
  · simp only [Memory.ram, slice, List.length_append, List.length_map, List.length_range,
      List.length_replicate]
    have hle := h.capacity
    omega
  · intro a ha _
    have ha' : a < m'.capacity := by simpa [Memory.ram, slice] using ha
    have hlarge : m'.ram[a] = m.cell a := by
      simp [Memory.ram, slice, Memory.peek, ha', h.cell]
    rw [hlarge]
    by_cases hlow : a < m.capacity
    · rw [List.getElem_append_left (by simpa [Memory.ram, slice] using hlow)]
      simp [Memory.ram, slice, Memory.peek, hlow]
    · rw [List.getElem_append_right (by simpa [Memory.ram, slice] using hlow),
        List.getElem_replicate]
      exact h.cell_zero a (Nat.le_of_not_lt hlow)

end Extends

end Memory

/-! ### Machines with memories of different size -/

/-- Machines of which the second has more memory. -/
def Coupling.ofMemory (limits : Limits) : Coupling where
  first := limits
  second := limits
  memories := Memory.Extends
  left fault := ∃ a, fault = .outOfBounds a
  right _ := False
  checkPush _ := .of_eq rfl
  rodata h := h.rodata
  read h addr n := by
    apply Agree.of_ok
    · intro fault hfault
      exact ⟨addr, Memory.read_eq_error hfault⟩
    · intro bytes hbytes
      exact ⟨bytes, h.read_eq_ok hbytes, rfl⟩
  readString h addr := by
    apply Agree.of_ok
    · intro fault hfault
      exact Memory.readString_eq_error hfault
    · intro bytes hbytes
      exact ⟨bytes, h.readString_eq_ok hbytes, rfl⟩
  write h := h.write

theorem Coupling.Paired.core_eq {H : Type} {limits : Limits} {m m' : Machine H}
    (h : (Coupling.ofMemory limits).Paired m m') : m'.core = m.core := by
  obtain ⟨core, hc, hd⟩ := h.related.core
  rw [hc, hd]
  rfl

namespace Machine

variable {H : Type} [Host H]

theorem paired_of_not_outOfBounds {program : Program} {config : Config} {host : H} {size : UInt32}
    (hsize : config.memorySize ≤ size) {k : Nat}
    (hok : ∀ pos addr, ((ofConfig program config host).after k).state ≠
      .faulted ⟨pos, .outOfBounds addr⟩) :
    (Coupling.ofMemory config.limits).Paired ((ofConfig program config host).after k)
      ((ofConfig program { config with memorySize := size } host).after k) := by
  induction k with
  | zero =>
    refine ⟨rfl, rfl, rfl, ⟨{}, rfl, rfl⟩, ?_, rfl⟩
    apply Memory.extends_ofSize
    have hle : config.memorySize.toNat ≤ size.toNat := hsize
    simp only [Config.effectiveMemorySize]
    omega
  | succ k ih =>
    have hpaired := ih fun pos addr hfault => hok pos addr ((steps_step _).state_of_faulted hfault)
    rcases hpaired.step (congrArg Core.checkStep hpaired.core_eq) with
      ⟨-, h⟩ | ⟨i, fault, ctx, ⟨addr, rfl⟩, hexec⟩ | ⟨_, _, _, h, -⟩
    · exact h
    · -- the smaller machine has gone out of bounds in this step
      refine absurd ?_ (hok ((ofConfig program config host).after k).ip addr)
      rw [after, hexec.step_of_error]
      rfl
    · exact h.elim

/-- **More memory changes nothing.**  Two machines that differ in the size of their memory alone
are, after any number of steps, in the same state with the same core and the same output,
unless the smaller one has gone out of bounds; and the memory of the larger one is the memory
of the smaller one followed by zeros. -/
theorem more_memory_same_run (program : Program) (config : Config) (host : H) (size : UInt32)
    (hsize : config.memorySize ≤ size) (small large : Machine H)
    (hsmall : small = ofConfig program config host)
    (hlarge : large = ofConfig program { config with memorySize := size } host) (k : Nat)
    (hok : ∀ pos addr, (small.after k).state ≠ .faulted ⟨pos, .outOfBounds addr⟩) :
    (large.after k).core = (small.after k).core ∧
      (large.after k).host = (small.after k).host ∧
      (large.after k).ip = (small.after k).ip ∧
      (large.after k).state = (small.after k).state ∧
      (large.after k).memory.ram = (small.after k).memory.ram ++
        List.replicate ({ config with memorySize := size }.effectiveMemorySize -
          config.effectiveMemorySize) 0 ∧
      (large.after k).memory.rodata = (small.after k).memory.rodata := by
  subst hsmall hlarge
  have hpaired := paired_of_not_outOfBounds hsize hok
  have hextends : Memory.Extends _ _ := hpaired.related.memory
  refine ⟨hpaired.core_eq, hpaired.related.host, hpaired.ip, hpaired.state, ?_, hextends.rodata⟩
  rw [hextends.ram, (sameRegions_after _ k).capacity, (sameRegions_after _ k).capacity]
  congr 2
  simp only [ofConfig, Memory.ofSize, Config.effectiveMemorySize]
  omega

/-- A word stored at the end of sixteen bytes, and four more bytes behind it. -/
theorem more_memory_same_run_sample :
    ((ofConfig { code := #[.set 7, .store32 12, .halt] } { memorySize := 20 }
        ({} : Writer)).after 3).state = .halted ∧
      ((ofConfig { code := #[.set 7, .store32 12, .halt] } { memorySize := 20 }
        ({} : Writer)).after 3).memory.ram =
          List.replicate 12 0 ++ [7, 0, 0, 0] ++ List.replicate 4 0 := by
  have hhalted : ((ofConfig { code := #[.set 7, .store32 12, .halt] } { memorySize := 16 }
      ({} : Writer)).after 3).state = .halted := by decide
  have hram : ((ofConfig { code := #[.set 7, .store32 12, .halt] } { memorySize := 16 }
      ({} : Writer)).after 3).memory.ram = List.replicate 12 0 ++ [7, 0, 0, 0] := by decide
  obtain ⟨-, -, -, hstate, hextended, -⟩ := more_memory_same_run
    { code := #[.set 7, .store32 12, .halt] } { memorySize := 16 } ({} : Writer) 20 (by decide)
    _ _ rfl rfl 3 (by rw [hhalted]; rintro pos addr ⟨⟩)
  refine ⟨hstate.trans hhalted, ?_⟩
  rw [hextended, hram]
  rfl

end Machine

end Accumulator
