/-
  Accumulator/Proofs/StringRead.lean
  ==================================
  **What is read as a string.**

  A string is read from an address to the first zero byte, and the search stays inside
  the region that the address is in.  `Region` lists the two regions with their bounds
  and contents; with the contents at hand the search disappears from what is said of it:
  the string is what stands in front of a zero byte in the rest of the contents
  (`readString_eq_ok_iff`), and there is none if the rest has no zero byte.  The fault
  then names the end of the region.  Where the mutable region touches the data segment,
  this is the first address of the data segment, but the search does not go on there.

  The region that an address is in has bytes from there to its end (`Region.room`,
  `Region.slice`), and these two facts are all that the search looks at.

  Printing a string is reading it and handing the bytes and a line feed to the host, so a
  host that takes all output has exactly these; if reading fails, the host is not called.
  The address is the main register as a number modulo `2^32`.
-/
import Accumulator.Proofs.Overlay
import Accumulator.Proofs.Printing

namespace Accumulator

namespace Memory

/-- The regions: where they start and stop, and what they hold. -/
inductive Region (m : Memory) : (start stop : Nat) → (bytes : List UInt8) → Prop
  | mutable : Region m 0 m.capacity m.ram
  | readOnly : Region m rodataBase (rodataBase + m.rodata.size) m.rodata.toList

variable {m : Memory} {addr : UInt32} {start stop : Nat} {bytes s : List UInt8}

theorem isMapped_iff {a : Nat} :
    m.IsMapped a ↔ ∃ start stop bytes, m.Region start stop bytes ∧ start ≤ a ∧ a < stop := by
  constructor
  · intro h
    rcases h with hmutable | hreadOnly
    · exact ⟨_, _, _, .mutable, Nat.zero_le a, hmutable⟩
    · exact ⟨_, _, _, .readOnly, hreadOnly.1, hreadOnly.2⟩
  · intro h
    obtain ⟨start, stop, bytes, hregion, hstart, hstop⟩ := h
    cases hregion with
    | mutable => exact .inl hstop
    | readOnly => exact .inr ⟨hstart, hstop⟩

theorem Region.stop_lt (h : m.Region start stop bytes)
    (hends : rodataBase + m.rodata.size < UInt32.size) : stop < UInt32.size := by
  have hcapacity := m.capacity_le
  cases h with
  | mutable => omega
  | readOnly => exact hends

/-! ### The rest of a region -/

theorem Region.length_drop (h : m.Region start stop bytes) (hstart : start ≤ addr.toNat) :
    (bytes.drop (addr.toNat - start)).length = stop - addr.toNat := by
  cases h with
  | mutable => simp [ram, Memory.slice]
  | readOnly =>
    rw [List.length_drop, Array.length_toList]
    omega

theorem Region.room (h : m.Region start stop bytes) (hstart : start ≤ addr.toNat)
    (hstop : addr.toNat < stop) : m.room addr = .ok (stop - addr.toNat) := by
  cases h with
  | mutable => exact room_ram hstop
  | readOnly =>
    have haddr : addr.toNat = rodataBase + (addr.toNat - rodataBase) := by omega
    have hroom : m.rodata.size - (addr.toNat - rodataBase) =
        rodataBase + m.rodata.size - addr.toNat := by omega
    rw [room_rodata haddr (by omega), hroom]

theorem Region.slice (h : m.Region start stop bytes) (hstart : start ≤ addr.toNat) {n : Nat}
    (hn : addr.toNat + n ≤ stop) :
    m.slice addr.toNat n = (bytes.drop (addr.toNat - start)).take n := by
  cases h with
  | mutable => exact slice_eq_ram hn
  | readOnly =>
    have haddr : rodataBase + (addr.toNat - rodataBase) = addr.toNat := by omega
    have hslice := @slice_eq_rodata m (addr.toNat - rodataBase) n (by omega)
    rwa [haddr] at hslice

theorem Region.drop_eq (h : m.Region start stop bytes) (hstart : start ≤ addr.toNat)
    (hstop : addr.toNat < stop) :
    bytes.drop (addr.toNat - start) = m.slice addr.toNat (stop - addr.toNat) := by
  rw [h.slice hstart (by omega), List.take_of_length_le]
  rw [h.length_drop hstart]

theorem findZero_eq_none {a room seen : Nat}
    (h : ∀ i, seen ≤ i → i < seen + room → m.peek (a + i) ≠ 0) :
    m.findZero a room seen = none := by
  induction room generalizing seen with
  | zero => rfl
  | succ room ih =>
    unfold findZero
    rw [if_neg (h seen (Nat.le_refl seen) (by omega))]
    apply ih
    intro i hseen hroom
    exact h i (by omega) (by omega)

/-! ### The three ends of a read -/

theorem readString_of_prefix (hregion : m.Region start stop bytes) (hstart : start ≤ addr.toNat)
    (hstop : addr.toNat < stop) (hzero : 0 ∉ s)
    (hfront : s ++ [0] <+: bytes.drop (addr.toNat - start)) : m.readString addr = .ok s := by
  have hlength := hfront.length_le
  rw [hregion.length_drop hstart, List.length_append, List.length_singleton] at hlength
  refine readString_of_slice (hregion.room hstart hstop) (by omega) ?_ hzero
  rw [hregion.slice hstart (by omega)]
  have htake := List.prefix_iff_eq_take.mp hfront
  rw [List.length_append, List.length_singleton] at htake
  exact htake.symm

theorem readString_of_no_zero (hends : stop < UInt32.size) (hregion : m.Region start stop bytes)
    (hstart : start ≤ addr.toNat) (hstop : addr.toNat < stop)
    (hzero : 0 ∉ bytes.drop (addr.toNat - start)) :
    ∃ last : UInt32, last.toNat = stop ∧ m.readString addr = .error (.outOfBounds last) := by
  rw [hregion.drop_eq hstart hstop] at hzero
  have hfind : m.findZero addr.toNat (stop - addr.toNat) 0 = none := by
    apply findZero_eq_none
    intro i _ hi hpeek
    have hmem : m.peek (addr.toNat + i) ∈ m.slice addr.toNat (stop - addr.toNat) :=
      peek_mem_slice (by omega)
    rw [hpeek] at hmem
    exact hzero hmem
  have hlast : min (addr.toNat + (stop - addr.toNat)) 0xffffffff = stop := by
    simp only [UInt32.size] at hends
    omega
  refine ⟨UInt32.ofNat stop, UInt32.toNat_ofNat_of_lt' hends, ?_⟩
  refine Outcome.bind_eq_error_iff.mpr (.inr ⟨_, hregion.room hstart hstop, ?_⟩)
  simp only [hfind, hlast]
  rfl

theorem readString_of_unmapped (h : ¬ m.IsMapped addr.toNat) :
    m.readString addr = .error (.outOfBounds addr) := by
  have hroom : m.room addr = .error (.outOfBounds addr) := by
    have hmutable : ¬ addr.toNat < m.capacity := fun hlt => h (.inl hlt)
    have hreadOnly : ¬ m.IsReadOnly addr.toNat := fun hreadOnly => h (.inr hreadOnly)
    rw [room, if_neg hmutable, if_neg (mt isRodata_iff.mp hreadOnly)]
  exact Outcome.bind_eq_error_iff.mpr (.inl hroom)

/-- **What a string is.** -/
theorem readString_eq_ok_iff (hends : rodataBase + m.rodata.size < UInt32.size) :
    m.readString addr = .ok s ↔ ∃ start stop bytes, m.Region start stop bytes ∧
      start ≤ addr.toNat ∧ addr.toNat < stop ∧ 0 ∉ s ∧
        s ++ [0] <+: bytes.drop (addr.toNat - start) := by
  constructor
  · intro h
    by_cases hmapped : m.IsMapped addr.toNat
    · obtain ⟨start, stop, bytes, hregion, hstart, hstop⟩ := isMapped_iff.mp hmapped
      refine ⟨start, stop, bytes, hregion, hstart, hstop, ?_⟩
      by_cases hzero : 0 ∈ bytes.drop (addr.toNat - start)
      · -- the first zero byte ends a string, and reading gives no other one
        obtain ⟨s', rest, hsplit, hs'⟩ := List.eq_append_cons_of_mem hzero
        have hfront : s' ++ [0] <+: bytes.drop (addr.toNat - start) := ⟨rest, by simp [hsplit]⟩
        have hread := readString_of_prefix hregion hstart hstop hs' hfront
        obtain rfl : s' = s := Except.ok.inj (hread.symm.trans h)
        exact ⟨hs', hfront⟩
      · obtain ⟨last, -, hread⟩ :=
          readString_of_no_zero (hregion.stop_lt hends) hregion hstart hstop hzero
        rw [hread] at h
        exact absurd h (by simp)
    · rw [readString_of_unmapped hmapped] at h
      exact absurd h (by simp)
  · intro h
    obtain ⟨start, stop, bytes, hregion, hstart, hstop, hzero, hfront⟩ := h
    exact readString_of_prefix hregion hstart hstop hzero hfront

end Memory

/-! ### Printing a string -/

/-- The host takes any text whole; `output` shows what it has taken. -/
def Host.Takes {H : Type} [Host H] (output : H → List UInt8) (host : H) : Prop :=
  ∀ bytes, ∃ host', Host.printText bytes host = (host', none) ∧
    output host' = output host ++ (bytes ++ [0x0a])

theorem Writer.takes_unlimited (output : Array UInt8) :
    Host.Takes (fun w : Writer => w.output.toList) (unlimited output) := by
  intro bytes
  exact ⟨_, printText_unlimited output bytes, by simp [unlimited]⟩

theorem toUInt32_of_toInt {v : Int32} {addr : UInt32}
    (h : v.toInt % UInt32.size = addr.toNat) : v.toUInt32 = addr := by
  apply UInt32.toNat_inj.mp
  have hword : v.toInt = (v.toUInt32.toNat : Int).bmod UInt32.size := BitVec.toInt_eq_toNat_bmod _
  have hlt := v.toUInt32.toNat_lt
  rw [hword, Int.bmod_emod] at h
  simp only [UInt32.size] at h
  omega

section

variable {H : Type} [Host H] {output : H → List UInt8} {host : H} {core : Core} {m : Memory}

theorem exec_print_of_ok {bytes : List UInt8} (hhost : Host.Takes output host) (pos : Pos)
    (h : m.readString core.main.toUInt32 = .ok bytes) :
    ∃ host', Instr.exec (.syscall 0) pos ⟨core, m, host⟩ = .ok .next ⟨core, m, host'⟩ ∧
      output host' = output host ++ (bytes ++ [0x0a]) := by
  obtain ⟨host', hprint, houtput⟩ := hhost bytes
  have hcall : Syscall.printText.output core m = .ok (Host.printText (H := H) bytes) :=
    Outcome.map_eq_ok_iff.mpr ⟨bytes, h, rfl⟩
  refine ⟨host', ?_, houtput⟩
  rw [Instr.exec_syscall_of_ok (s := .printText) rfl pos ⟨core, m, host⟩ hcall, hprint]
  rfl

theorem exec_print_of_error {fault : Fault} (pos : Pos)
    (h : m.readString core.main.toUInt32 = .error fault) :
    Instr.exec (.syscall 0) pos ⟨core, m, host⟩ = .error fault ⟨core, m, host⟩ :=
  Instr.exec_syscall_of_error (s := .printText) rfl pos ⟨core, m, host⟩
    (Outcome.map_eq_error_iff.mpr h)

end

namespace Memory

/-- **Strings are read exactly.**  Reading from an address of a region gives the bytes in front of
the first zero byte of the rest of this region, and if there is none a fault that names the end of
the region; reading from an unmapped address gives a fault that names the address.  The system
call that prints a string adds the string that is read and a line feed to what a host that takes
all output has, or it ends in the fault of the read and the host has nothing new. -/
theorem string_read_exact (m : Memory) (hends : rodataBase + m.rodata.size < UInt32.size)
    (addr : UInt32) :
    (∀ s, m.readString addr = .ok s ↔ ∃ start stop bytes, m.Region start stop bytes ∧
      start ≤ addr.toNat ∧ addr.toNat < stop ∧ 0 ∉ s ∧
        s ++ [0] <+: bytes.drop (addr.toNat - start)) ∧
    (¬ m.IsMapped addr.toNat → m.readString addr = .error (.outOfBounds addr)) ∧
    (∀ start stop bytes, m.Region start stop bytes → start ≤ addr.toNat → addr.toNat < stop →
      0 ∉ bytes.drop (addr.toNat - start) →
      ∃ last : UInt32, last.toNat = stop ∧ m.readString addr = .error (.outOfBounds last)) ∧
    ∀ {H : Type} [Host H] (output : H → List UInt8) (host : H) (core : Core) (pos : Pos),
      Host.Takes output host → core.main.toInt % UInt32.size = addr.toNat →
      (∃ s host', m.readString addr = .ok s ∧
        Instr.exec (.syscall 0) pos ⟨core, m, host⟩ = .ok .next ⟨core, m, host'⟩ ∧
        output host' = output host ++ (s ++ [0x0a])) ∨
      ∃ a, m.readString addr = .error (.outOfBounds a) ∧
        Instr.exec (.syscall 0) pos ⟨core, m, host⟩ =
          .error (.outOfBounds a) ⟨core, m, host⟩ := by
  refine ⟨fun s => readString_eq_ok_iff hends, readString_of_unmapped, ?_, ?_⟩
  · intro start stop bytes hregion hstart hstop hzero
    exact readString_of_no_zero (hregion.stop_lt hends) hregion hstart hstop hzero
  · intro H _ output host core pos hhost haddr
    obtain rfl := toUInt32_of_toInt haddr
    cases hread : m.readString core.main.toUInt32 with
    | ok s =>
      obtain ⟨host', hexec, houtput⟩ := exec_print_of_ok hhost pos hread
      exact .inl ⟨s, host', rfl, hexec, houtput⟩
    | error fault =>
      obtain ⟨a, rfl⟩ := readString_eq_error hread
      exact .inr ⟨a, rfl, exec_print_of_error pos hread⟩

/-- A memory whose regions touch, with the last two bytes of the mutable region written. -/
def seam : Memory := (ofSize rodataBase #[0x68, 0]).stored 0x3ffffffe [0x61, 0x62]

/-- The string of the data segment is read, but not from the mutable region, where the search ends
at the seam.  A negative main register is an address above both regions. -/
theorem string_read_exact_seam :
    seam.readString 0x40000000 = .ok [0x68] ∧
    (∃ last : UInt32, last.toNat = rodataBase ∧
      seam.readString 0x3ffffffe = .error (.outOfBounds last)) ∧
    Instr.exec (.syscall 0) 0 ⟨{ main := -1 }, seam, Writer.unlimited #[]⟩ =
      .error (.outOfBounds 0xffffffff) ⟨{ main := -1 }, seam, Writer.unlimited #[]⟩ := by
  have hends : rodataBase + seam.rodata.size < UInt32.size := by decide
  obtain ⟨hstring, -⟩ := string_read_exact seam hends 0x40000000
  obtain ⟨-, -, hseam, -⟩ := string_read_exact seam hends 0x3ffffffe
  obtain ⟨-, hunmapped, -, hprint⟩ := string_read_exact seam hends 0xffffffff
  refine ⟨(hstring _).mpr ?_, hseam _ _ _ .mutable (by decide) (by decide) ?_, ?_⟩
  · exact ⟨_, _, _, .readOnly, by decide, by decide, by decide, by decide⟩
  · rw [Region.drop_eq .mutable (by decide) (by decide)]
    decide
  · have habove : ¬ seam.IsMapped (0xffffffff : UInt32).toNat := by
      unfold IsMapped IsMutable IsReadOnly
      decide
    have hread := hunmapped habove
    have htakes := Writer.takes_unlimited #[]
    rcases hprint _ _ { main := -1 } 0 htakes (by decide) with ⟨s, -, hs, -⟩ | ⟨a, ha, hexec⟩
    · rw [hread] at hs
      exact absurd hs (by simp)
    · rw [hread] at ha
      cases ha
      exact hexec

end Memory

end Accumulator
