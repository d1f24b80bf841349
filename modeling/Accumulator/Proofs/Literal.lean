/-
  Accumulator/Proofs/Literal.lean
  ===============================
  **Literals in the data segment and in memory.**

  A literal ends with a zero byte, and the reference to it counts this byte in.  Reading
  it back by its reference drops the terminator; reading it back as a string from an
  address stops at the first zero byte.  The two agree as long as the text has no NUL
  character, since the bytes of any other character are not zero
  (`Utf8.zero_not_mem_encode`).

  A string is read the same way in both regions of memory: what counts is the bytes from
  the address on and that the region goes on long enough (`readString_of_slice`).
-/
import Accumulator.Proofs.Language
import Accumulator.Proofs.MemorySize
import Accumulator.Proofs.Utf8

namespace Accumulator

/-! ### Zero bytes -/

namespace Utf8

theorem tailByte_ne_zero (n : Nat) : tailByte n ≠ 0 := by
  rw [ne_eq, ← UInt8.toNat_inj, toNat_tailByte]
  simp

theorem ofNat_ne_zero {n : Nat} (hpos : 0 < n) (hlt : n < 256) : UInt8.ofNat n ≠ 0 := by
  rw [ne_eq, ← UInt8.toNat_inj, toNat_ofNat hlt]
  exact Nat.ne_of_gt hpos

/-- Only the NUL character has a zero byte. -/
theorem zero_not_mem_utf8EncodeChar {c : Char} (h : c ≠ '\x00') :
    0 ∉ String.utf8EncodeChar c := by
  have hpos : 0 < c.toNat := by
    refine Nat.pos_of_ne_zero fun hzero => h ?_
    exact Char.toNat_inj.mp hzero
  have hmax := toNat_lt c
  rcases utf8EncodeChar_cases c with ⟨hhigh, hc⟩ | ⟨-, hhigh, hc⟩ | ⟨-, hhigh, hc⟩ | ⟨-, hc⟩
  all_goals
    rw [hc]
    simp only [List.mem_cons, List.not_mem_nil, or_false, not_or]
  · exact (ofNat_ne_zero hpos (by omega)).symm
  · exact ⟨(ofNat_ne_zero (by omega) (by omega)).symm, (tailByte_ne_zero _).symm⟩
  · exact ⟨(ofNat_ne_zero (by omega) (by omega)).symm, (tailByte_ne_zero _).symm,
      (tailByte_ne_zero _).symm⟩
  · exact ⟨(ofNat_ne_zero (by omega) (by omega)).symm, (tailByte_ne_zero _).symm,
      (tailByte_ne_zero _).symm, (tailByte_ne_zero _).symm⟩

theorem zero_not_mem_encode {cs : List Char} (h : '\x00' ∉ cs) : 0 ∉ encode cs := by
  intro hmem
  obtain ⟨c, hc, hzero⟩ := List.mem_flatMap.mp hmem
  refine zero_not_mem_utf8EncodeChar ?_ hzero
  rintro rfl
  exact h hc

end Utf8

/-! ### Strings in memory -/

namespace Memory

variable {m : Memory}

theorem slice_succ (m : Memory) (a n : Nat) :
    m.slice a (n + 1) = m.slice a n ++ [m.peek (a + n)] := by
  simp [slice, List.range_succ]

theorem peek_mem_slice {a n i : Nat} (h : i < n) : m.peek (a + i) ∈ m.slice a n :=
  List.mem_map.mpr ⟨i, List.mem_range.mpr h, rfl⟩

theorem findZero_of_first {a room seen n : Nat} (hseen : seen ≤ n) (hroom : n < seen + room)
    (hzero : m.peek (a + n) = 0) (hfirst : ∀ i < n, m.peek (a + i) ≠ 0) :
    m.findZero a room seen = some n := by
  induction room generalizing seen with
  | zero => omega
  | succ room ih =>
    unfold findZero
    rcases Nat.lt_or_eq_of_le hseen with hlt | rfl
    · rw [if_neg (hfirst seen hlt)]
      exact ih hlt (by omega)
    · rw [if_pos hzero]

/-- **A string in memory.**  Bytes without zero in front of a zero byte, in a region that goes on
long enough, are read as a string. -/
theorem readString_of_slice {addr : UInt32} {room : Nat} {bytes : List UInt8}
    (hroom : m.room addr = .ok room) (hfits : bytes.length < room)
    (hslice : m.slice addr.toNat (bytes.length + 1) = bytes ++ [0]) (hzero : 0 ∉ bytes) :
    m.readString addr = .ok bytes := by
  rw [slice_succ] at hslice
  obtain ⟨hbytes, hend⟩ := List.append_inj' hslice rfl
  have hfirst : ∀ i < bytes.length, m.peek (addr.toNat + i) ≠ 0 := by
    intro i hi hpeek
    have hmem : m.peek (addr.toNat + i) ∈ bytes := by
      rw [← hbytes]
      exact peek_mem_slice hi
    rw [hpeek] at hmem
    exact hzero hmem
  have hfind : m.findZero addr.toNat room 0 = some bytes.length :=
    findZero_of_first (Nat.zero_le _) (by omega) (List.cons.inj hend).1 hfirst
  refine Outcome.bind_eq_ok_iff.mpr ⟨room, hroom, ?_⟩
  simp only [hfind, hbytes]
  rfl

/-- A slice of the mutable region. -/
theorem slice_eq_ram {a n : Nat} (h : a + n ≤ m.capacity) :
    m.slice a n = (m.ram.drop a).take n := by
  apply List.ext_getElem
  · simp only [ram, slice, List.length_map, List.length_range, List.length_take, List.length_drop]
    omega
  · intro i _ _
    simp [ram, slice]

/-- A slice of the data segment. -/
theorem slice_eq_rodata {offset n : Nat} (h : offset + n ≤ m.rodata.size) :
    m.slice (rodataBase + offset) n = (m.rodata.toList.drop offset).take n := by
  apply List.ext_getElem
  · simp only [slice, List.length_map, List.length_range, List.length_take, List.length_drop,
      Array.length_toList]
    omega
  · intro i hi _
    have hin : i < n := by simpa [slice] using hi
    have hout : ¬ rodataBase + offset + i < m.capacity := by
      have hle := m.capacity_le
      omega
    have hindex : rodataBase + offset + i - rodataBase = offset + i := by omega
    have hsize : offset + i < m.rodata.size := by omega
    simp [slice, peek, hout, hindex, Array.getD, hsize]

theorem room_ram {addr : UInt32} (h : addr.toNat < m.capacity) :
    m.room addr = .ok (m.capacity - addr.toNat) := if_pos h

theorem room_rodata {addr : UInt32} {offset : Nat} (haddr : addr.toNat = rodataBase + offset)
    (h : offset < m.rodata.size) : m.room addr = .ok (m.rodata.size - offset) := by
  have hout : ¬ addr.toNat < m.capacity := by
    have hle := m.capacity_le
    omega
  have hin : m.isRodata addr = true := by
    simp only [isRodata, Bool.and_eq_true, decide_eq_true_eq]
    omega
  rw [room, if_neg hout, if_pos hin, haddr, Nat.add_sub_cancel_left]

/-- **What a copy leaves.**  Bytes stored in a fresh memory are all that is there. -/
theorem ram_stored_ofSize {size a : Nat} {rodata : Array UInt8} {bytes : List UInt8}
    (h : a + bytes.length ≤ min size memorySizeMax) :
    ((ofSize size rodata).stored a bytes).ram = List.replicate a 0 ++ bytes ++
      List.replicate (min size memorySizeMax - (a + bytes.length)) 0 := by
  apply List.ext_getElem
  · simp only [ram, slice, stored, ofSize, List.length_map, List.length_range, List.length_append,
      List.length_replicate]
    omega
  · intro k hk _
    have hk : k < min size memorySizeMax := by simpa [ram, slice, stored, ofSize] using hk
    have hcell : ((ofSize size rodata).stored a bytes).ram[k] =
        if a ≤ k then bytes.getD (k - a) 0 else 0 := by
      have hfresh : (ofSize size rodata).cell k = 0 := by simp [cell, ofSize]
      have hpeek : ((ofSize size rodata).stored a bytes).peek k =
          ((ofSize size rodata).stored a bytes).cell k := if_pos hk
      simp only [ram, slice, List.getElem_map, List.getElem_range, Nat.zero_add, hpeek, cell_stored,
        hfresh]
    rw [hcell]
    by_cases hlow : k < a
    · have hnot : ¬ a ≤ k := Nat.not_le.mpr hlow
      simp [hnot, hlow]
    · have hle : a ≤ k := Nat.not_lt.mp hlow
      by_cases hin : k - a < bytes.length
      · simp [hle, hin]
      · simp [hle, hin, List.getElem_append]

/-- A string stored in a fresh memory is read back. -/
theorem readString_stored_ofSize {size : Nat} {addr : UInt32} {rodata : Array UInt8}
    {bytes : List UInt8} (h : addr.toNat + bytes.length + 1 ≤ min size memorySizeMax)
    (hzero : 0 ∉ bytes) :
    ((ofSize size rodata).stored addr.toNat (bytes ++ [0])).readString addr = .ok bytes := by
  have hlength : bytes.length + 1 = (bytes ++ [0]).length := by simp
  have hcapacity : ((ofSize size rodata).stored addr.toNat (bytes ++ [0])).capacity =
      min size memorySizeMax := rfl
  refine readString_of_slice (room_ram (by omega)) (by omega) ?_ hzero
  rw [slice_eq_ram (by omega), ram_stored_ofSize (by rwa [← hlength]), List.append_assoc,
    List.drop_left' List.length_replicate, hlength, List.take_left]

end Memory

/-! ### Literals of the data segment -/

/-- A reference marks these bytes of a row of bytes, with their terminator. -/
def DataRef.Marks (ref : DataRef) (segment bytes : List UInt8) : Prop :=
  ∃ front back, segment = front ++ (bytes ++ [0]) ++ back ∧ ref.start = front.length ∧
    ref.stop = front.length + bytes.length + 1

section Marks

variable {ref : DataRef} {bytes : List UInt8}

theorem DataRef.Marks.take_eq {segment : List UInt8} (h : ref.Marks segment bytes) :
    (segment.drop ref.start).take (bytes.length + 1) = bytes ++ [0] ∧
      ref.start + (bytes.length + 1) ≤ segment.length := by
  obtain ⟨front, back, rfl, hstart, -⟩ := h
  have hlength : bytes.length + 1 = (bytes ++ [0]).length := by simp
  constructor
  · rw [hstart, List.append_assoc, List.drop_left, hlength, List.take_left]
  · simp [hstart]

/-- The bytes of the range that a reference names. -/
theorem DataRef.Marks.extract_eq {segment : Array UInt8} (h : ref.Marks segment.toList bytes) :
    ref.stop ≤ segment.size ∧ (segment.extract ref.start ref.stop).toList = bytes ++ [0] := by
  obtain ⟨htake, hle⟩ := h.take_eq
  obtain ⟨front, back, -, hstart, hstop⟩ := h
  have hlength : ref.stop - ref.start = bytes.length + 1 := by omega
  constructor
  · have hsize : segment.toList.length = segment.size := Array.length_toList
    omega
  · rw [Array.toList_extract, List.extract_eq_take_drop, hlength, htake]

theorem DataSegment.literal?_of_marks {d : DataSegment} (h : ref.Marks d.bytes.toList bytes) :
    d.literal? ref = some bytes := by
  obtain ⟨hin, hbytes⟩ := h.extract_eq
  have hrange : d.range? ref = some (bytes ++ [0]) := by
    rw [DataSegment.range?, DataSegment.size, if_pos hin, hbytes]
  simp [DataSegment.literal?, hrange]

theorem Memory.readString_of_marks {m : Memory} (h : ref.Marks m.rodata.toList bytes)
    (hzero : 0 ∉ bytes) : m.readString ref.address = .ok bytes := by
  obtain ⟨htake, hle⟩ := h.take_eq
  have hsize : m.rodata.toList.length = m.rodata.size := Array.length_toList
  rw [hsize] at hle
  have haddr : ref.address.toNat = rodataBase + ref.start := by
    have hlt := ref.offset.toNat_lt
    rw [DataRef.address, UInt32.toNat_ofNat_of_lt']
    · rfl
    · simp only [rodataBase, UInt32.size]
      omega
  refine Memory.readString_of_slice (Memory.room_rodata haddr (by omega)) (by omega) ?_ hzero
  rw [haddr, Memory.slice_eq_rodata hle, htake]

/-- A literal is copied with its terminator to where there is room for both. -/
theorem Memory.copyLiteral_of_marks {m : Memory} {addr : UInt32}
    (h : ref.Marks m.rodata.toList bytes) (hroom : addr.toNat + bytes.length + 1 ≤ m.capacity) :
    m.copyLiteral ref addr = .ok (m.stored addr.toNat (bytes ++ [0])) := by
  obtain ⟨hin, hbytes⟩ := h.extract_eq
  have hmutable : m.isRodata addr = false := by
    have hcapacity := m.capacity_le
    simp only [Memory.isRodata, Bool.and_eq_false_iff, decide_eq_false_iff_not]
    omega
  have hfits : addr.toNat + (bytes ++ [0]).length ≤ m.capacity := by
    rwa [List.length_append]
  rw [Memory.copyLiteral, if_pos hin, hbytes, Memory.write, hmutable, if_neg Bool.false_ne_true,
    if_pos hfits]

end Marks

end Accumulator

namespace Accumulator.Assembly

/-- A data label marks the literal that it leads to. -/
theorem Binds.exists_literal {stmts : List NumberedStatement} {name : String} {ref : DataRef}
    (h : Binds stmts name (.data ref)) :
    ∃ text, LeadsTo stmts name (some (.data text)) ∧
      ref.Marks (dataBytes stmts) (Utf8.encode text) := by
  cases h with
  | next h =>
    obtain ⟨before, ⟨line, statement⟩, rest, rfl, hpending, hlocates⟩ := h
    cases hlocates with
    | @literal text _ hoffset hlength =>
      refine ⟨text, .next rfl hpending (by rintro ⟨name, ⟨⟩⟩), dataBytes before, dataBytes rest, ?_,
        hoffset, ?_⟩
      · rw [dataBytes_append, List.append_assoc]
        rfl
      · rw [DataRef.stop, hoffset, hlength, Nat.add_assoc]

/-- **Literals are found by their labels.**  In an assembled program, the reference of a data
label names the bytes of the literal that the label leads to, and reading a string from its
address gives these bytes, if there is no NUL among the characters. -/
theorem literal_of_label {source name : String} {p : Program} {ref : DataRef}
    (h : Program.assemble source = .ok p) (hlabel : p.labels[name]? = some (.data ref)) :
    ∃ stmts text, statements source.toList = .ok stmts ∧
      LeadsTo stmts name (some (.data text)) ∧ p.data.literal? ref = some (Utf8.encode text) ∧
      ('\x00' ∉ text → ∀ m : Memory, m.rodata = p.data.bytes →
        m.readString ref.address = .ok (Utf8.encode text)) := by
  obtain ⟨stmts, hstmts, hassembled⟩ := assembled_of_assemble h
  obtain ⟨text, hleads, hmarks⟩ := ((hassembled.labels_iff name _).mp hlabel).exists_literal
  rw [← hassembled.data_eq] at hmarks
  refine ⟨stmts, text, hstmts, hleads, DataSegment.literal?_of_marks hmarks, ?_⟩
  intro hnul m hm
  rw [← hm] at hmarks
  exact Memory.readString_of_marks hmarks (Utf8.zero_not_mem_encode hnul)

end Accumulator.Assembly
