/-
  Accumulator/Proofs/Overlay.lean
  ===============================
  **Bytes and words are views of one store.**

  A write lays a row of bytes over the memory.  A byte that is read afterwards is one of
  the new bytes if its address lies under the row, and what it was before if not, be it a
  value or a fault; the data segment is never under a row.  This is `Overlays`, and it is
  all there is to know of a write (`overlays_of_write`), whatever its width and wherever
  earlier writes went.

  A word is the four bytes from its address on.  `wordByte` and `wordOf` say which bytes
  and which word, in terms of the bits of the word: byte `k` is made of the bits from `8k`
  on, so a negative word is taken in two's complement.  A word that can be read is always
  the word of the four bytes there (`readWord_eq_ok`), also if they come from different
  writes.

  Writing a word comes to the same memory as writing its bytes one by one, from the lowest
  on.  The two fail together, but not with the same memory: bytes that are written one by
  one may get as far as the end of the mutable region.
-/
import Accumulator.Proofs.Access

namespace Accumulator

/-! ### The bytes of a word -/

/-- Byte `k` of a word, the lowest first. -/
def wordByte (v : Int32) (k : Nat) : UInt8 := ⟨v.toBitVec.extractLsb' (8 * k) 8⟩

/-- The word of four bytes, the lowest first. -/
def wordOf (b₀ b₁ b₂ b₃ : UInt8) : Int32 :=
  ⟨⟨b₃.toBitVec ++ b₂.toBitVec ++ b₁.toBitVec ++ b₀.toBitVec⟩⟩

theorem toNat_wordByte (v : Int32) (k : Nat) :
    (wordByte v k).toNat = v.toUInt32.toNat / 256 ^ k % 256 := by
  have hbits : (wordByte v k).toNat = v.toUInt32.toNat >>> (8 * k) % 256 :=
    BitVec.extractLsb'_toNat _ _ _
  rw [hbits, Nat.shiftRight_eq_div_pow, Nat.pow_mul]

theorem toBytes_eq_wordBytes (v : Int32) :
    Word.toBytes 4 v.toUInt32.toNat = [wordByte v 0, wordByte v 1, wordByte v 2, wordByte v 3] := by
  have hbyte : ∀ k, UInt8.ofNat (v.toUInt32.toNat / 256 ^ k) = wordByte v k := by
    intro k
    apply UInt8.toNat_inj.mp
    rw [UInt8.toNat_ofNat', toNat_wordByte]
  rw [← hbyte 0, ← hbyte 1, ← hbyte 2, ← hbyte 3]
  simp [Word.toBytes, Nat.div_div_eq_div_mul]

theorem toNat_append_byte {w : Nat} (high : BitVec w) (low : UInt8) :
    (high ++ low.toBitVec).toNat = high.toNat * 256 + low.toNat := by
  rw [BitVec.toNat_append, ← Nat.shiftLeft_add_eq_or_of_lt low.toBitVec.isLt,
    Nat.shiftLeft_eq]
  rfl

theorem wordOf_eq (b₀ b₁ b₂ b₃ : UInt8) :
    wordOf b₀ b₁ b₂ b₃ = (UInt32.ofNat (Word.ofBytes [b₀, b₁, b₂, b₃])).toInt32 := by
  have hword : (wordOf b₀ b₁ b₂ b₃).toUInt32 = UInt32.ofNat (Word.ofBytes [b₀, b₁, b₂, b₃]) := by
    apply UInt32.toNat_inj.mp
    have hlt₀ := b₀.toNat_lt
    have hlt₁ := b₁.toNat_lt
    have hlt₂ := b₂.toNat_lt
    have hlt₃ := b₃.toNat_lt
    have hbits : (wordOf b₀ b₁ b₂ b₃).toUInt32.toNat =
        ((b₃.toNat * 256 + b₂.toNat) * 256 + b₁.toNat) * 256 + b₀.toNat := by
      change (b₃.toBitVec ++ b₂.toBitVec ++ b₁.toBitVec ++ b₀.toBitVec).toNat = _
      simp only [toNat_append_byte]
      rfl
    rw [hbits, UInt32.toNat_ofNat']
    simp only [Word.ofBytes_cons, Word.ofBytes_nil]
    omega
  rw [← hword]
  rfl

/-- A word is the word of its bytes. -/
theorem wordOf_wordByte (v : Int32) :
    wordOf (wordByte v 0) (wordByte v 1) (wordByte v 2) (wordByte v 3) = v := by
  rw [wordOf_eq, ← toBytes_eq_wordBytes, Word.ofBytes_toBytes_four v.toUInt32.toNat_lt,
    UInt32.ofNat_toNat]
  rfl

namespace Memory

variable {m m' : Memory} {addr : UInt32}

/-- Reading a byte of `m'` gives the new byte if its address is one of the `n` addresses from
`addr` on, and otherwise what it gives in `m`. -/
def Overlays (m m' : Memory) (addr : UInt32) (n : Nat) (byte : Nat → UInt8) : Prop :=
  ∀ b : UInt32, m'.readByte b =
    if addr.toNat ≤ b.toNat ∧ b.toNat < addr.toNat + n then .ok (byte (b.toNat - addr.toNat))
    else m.readByte b

/-- The `n` addresses from `addr` on read as these bytes. -/
def Holds (m : Memory) (addr : UInt32) (n : Nat) (byte : Nat → UInt8) : Prop :=
  ∀ b : UInt32, addr.toNat ≤ b.toNat → b.toNat < addr.toNat + n →
    m.readByte b = .ok (byte (b.toNat - addr.toNat))

/-! ### Reading a byte -/

/-- The address of a byte that can be read. -/
def IsMapped (m : Memory) (a : Nat) : Prop := m.IsMutable a ∨ m.IsReadOnly a

theorem inOneRegion_one {a : Nat} : m.InOneRegion a 1 ↔ m.IsMapped a := by
  rw [inOneRegion_iff Nat.one_pos]
  unfold IsMapped IsMutable IsReadOnly
  omega

theorem readByte_of_mapped (h : m.IsMapped addr.toNat) :
    m.readByte addr = .ok (m.peek addr.toNat) := by
  rcases m.read_cases addr Nat.one_pos with ⟨-, hread⟩ | ⟨hregion, -⟩
  · rw [readByte, hread]
    simp [Except.map, slice, Word.ofBytes]
  · exact absurd (inOneRegion_one.mpr h) hregion

theorem readByte_of_unmapped (h : ¬ m.IsMapped addr.toNat) :
    m.readByte addr = .error (.outOfBounds addr) := by
  rcases m.read_cases addr Nat.one_pos with ⟨hregion, -⟩ | ⟨-, hread⟩
  · exact absurd (inOneRegion_one.mp hregion) h
  · rw [readByte, hread]
    rfl

theorem InOneRegion.isMapped {a n x : Nat} (h : m.InOneRegion a n) (hfirst : a ≤ x)
    (hlast : x < a + n) : m.IsMapped x := by
  rcases h with hmutable | hreadOnly
  · exact .inl (hmutable x hfirst hlast)
  · exact .inr (hreadOnly x hfirst hlast)

/-! ### Reading behind a write -/

theorem write_eq_ok_iff {bytes : List UInt8} :
    m.write addr bytes = .ok m' ↔ ¬ m.IsReadOnly addr.toNat ∧
      addr.toNat + bytes.length ≤ m.capacity ∧ m' = m.stored addr.toNat bytes := by
  rcases m.write_cases addr bytes with
    ⟨hreadOnly, hwrite⟩ | ⟨hreadOnly, hfits, hwrite⟩ | ⟨hreadOnly, hfits, hwrite⟩
  · simp [hwrite, hreadOnly]
  · simp [hwrite, hreadOnly, hfits, eq_comm]
  · simp [hwrite, Nat.not_le_of_lt hfits]

theorem peek_stored {a : Nat} {bytes : List UInt8} (h : a + bytes.length ≤ m.capacity) (x : Nat) :
    (m.stored a bytes).peek x =
      if a ≤ x ∧ x < a + bytes.length then bytes.getD (x - a) 0 else m.peek x := by
  have hcapacity : (m.stored a bytes).capacity = m.capacity := rfl
  have hrodata : (m.stored a bytes).rodata = m.rodata := rfl
  unfold peek
  rw [hcapacity, hrodata, cell_stored]
  by_cases hunder : a ≤ x ∧ x < a + bytes.length
  · have hin : x < m.capacity := by omega
    have hindex : x - a < bytes.length := by omega
    rw [if_pos hin, if_pos hunder.1, if_pos hunder]
    simp [List.getD_eq_getElem?_getD, hindex]
  · rw [if_neg hunder]
    by_cases hfirst : a ≤ x
    · have hindex : bytes.length ≤ x - a := by omega
      rw [if_pos hfirst]
      simp [List.getD_eq_getElem?_getD, hindex]
    · rw [if_neg hfirst]

/-- **Reading behind a write.**  A write lays its bytes over the memory, and nothing else
changes. -/
theorem overlays_of_write {bytes : List UInt8} (h : m.write addr bytes = .ok m') :
    m.Overlays m' addr bytes.length (bytes.getD · 0) := by
  obtain ⟨-, hfits, rfl⟩ := write_eq_ok_iff.mp h
  intro b
  have hsame : (m.stored addr.toNat bytes).IsMapped b.toNat ↔ m.IsMapped b.toNat := Iff.rfl
  have hpeek := peek_stored hfits b.toNat
  by_cases hmapped : m.IsMapped b.toNat
  · rw [readByte_of_mapped (hsame.mpr hmapped), readByte_of_mapped hmapped, hpeek]
    split <;> rfl
  · have hout : ¬ (addr.toNat ≤ b.toNat ∧ b.toNat < addr.toNat + bytes.length) := by
      intro hunder
      exact hmapped (.inl (show b.toNat < m.capacity by omega))
    rw [readByte_of_unmapped (mt hsame.mp hmapped), readByte_of_unmapped hmapped, if_neg hout]

theorem Overlays.congr {n : Nat} {byte byte' : Nat → UInt8} (h : m.Overlays m' addr n byte)
    (hbyte : ∀ i < n, byte i = byte' i) : m.Overlays m' addr n byte' := by
  intro b
  rw [h b]
  by_cases hunder : addr.toNat ≤ b.toNat ∧ b.toNat < addr.toNat + n
  · rw [if_pos hunder, if_pos hunder, hbyte _ (by omega)]
  · rw [if_neg hunder, if_neg hunder]

theorem overlays_of_writeWord {v : Int32} (h : m.writeWord addr v = .ok m') :
    m.Overlays m' addr 4 (wordByte v) := by
  unfold writeWord at h
  rw [toBytes_eq_wordBytes] at h
  refine (overlays_of_write h).congr ?_
  intro i hi
  match i, hi with
  | 0, _ => rfl
  | 1, _ => rfl
  | 2, _ => rfl
  | 3, _ => rfl

theorem overlays_of_copyLiteral {src : DataRef} (h : m.copyLiteral src addr = .ok m') :
    src.stop ≤ m.rodata.size ∧
      m.Overlays m' addr src.length.toNat (fun i => m.rodata.getD (src.start + i) 0) := by
  by_cases hsource : src.stop ≤ m.rodata.size
  · rw [copyLiteral_eq_write hsource] at h
    have hlength : (m.rodata.extract src.start src.stop).toList.length = src.length.toNat := by
      rw [Array.length_toList, Array.size_extract, Nat.min_eq_left hsource]
      exact Nat.add_sub_cancel_left src.start src.length.toNat
    have hoverlays := overlays_of_write h
    rw [hlength] at hoverlays
    refine ⟨hsource, hoverlays.congr ?_⟩
    intro i hi
    have hstop : src.start + i < src.stop := Nat.add_lt_add_left hi src.start
    have hsize : src.start + i < m.rodata.size := Nat.lt_of_lt_of_le hstop hsource
    have hindex : i < (m.rodata.extract src.start src.stop).toList.length := by rwa [hlength]
    rw [List.getD_eq_getElem?_getD, List.getElem?_eq_getElem hindex, Option.getD_some,
      Array.getElem_toList, Array.getElem_extract]
    simp [Array.getD, hsize]
  · rw [copyLiteral, if_neg hsource] at h
    exact absurd h (by simp)

/-! ### Words -/

theorem slice_four (m : Memory) (a : Nat) :
    m.slice a 4 = [m.peek a, m.peek (a + 1), m.peek (a + 2), m.peek (a + 3)] := rfl

theorem holds_of_inOneRegion {n : Nat} (h : m.InOneRegion addr.toNat n) :
    m.Holds addr n (fun i => m.peek (addr.toNat + i)) := by
  intro b hfirst hlast
  have hsum : addr.toNat + (b.toNat - addr.toNat) = b.toNat := Nat.add_sub_cancel' hfirst
  rw [readByte_of_mapped (h.isMapped hfirst hlast)]
  simp only [hsum]

/-- **A word is read from its bytes.** -/
theorem readWord_eq_ok {w : Int32} (h : m.readWord addr = .ok w) :
    ∃ byte, m.Holds addr 4 byte ∧ w = wordOf (byte 0) (byte 1) (byte 2) (byte 3) := by
  rcases m.read_cases addr (show 0 < 4 by decide) with ⟨hregion, hread⟩ | ⟨-, hread⟩
  · refine ⟨_, holds_of_inOneRegion hregion, ?_⟩
    rw [readWord, hread, slice_four] at h
    rw [wordOf_eq]
    exact (Except.ok.inj h).symm
  · rw [readWord, hread] at h
    exact absurd h (by simp [Except.map])

theorem slice_stored {a : Nat} {bytes : List UInt8} (h : a + bytes.length ≤ m.capacity) :
    (m.stored a bytes).slice a bytes.length = bytes := by
  apply List.ext_getElem
  · simp [slice]
  · intro i _ hi
    simp [slice, peek_stored h, hi]

/-- A word that was written is read back. -/
theorem readWord_of_writeWord {v : Int32} (h : m.writeWord addr v = .ok m') :
    m'.readWord addr = .ok v := by
  unfold writeWord at h
  have hlength : (Word.toBytes 4 v.toUInt32.toNat).length = 4 := Word.length_toBytes 4 _
  obtain ⟨-, hfits, rfl⟩ := write_eq_ok_iff.mp h
  have hslice := slice_stored hfits
  rw [hlength] at hfits hslice
  rcases (m.stored addr.toNat (Word.toBytes 4 v.toUInt32.toNat)).read_cases addr
    (show 0 < 4 by decide) with ⟨-, hread⟩ | ⟨hregion, -⟩
  · rw [readWord, hread, hslice, toBytes_eq_wordBytes]
    rw [Except.map, ← wordOf_eq, wordOf_wordByte]
  · exact absurd ((inOneRegion_iff (by decide)).mpr (.inl hfits)) hregion

/-! ### Words written byte by byte -/

theorem stored_cons (m : Memory) (a : Nat) (x : UInt8) (bytes : List UInt8) :
    m.stored a (x :: bytes) = (m.stored a [x]).stored (a + 1) bytes := rfl

/-- The address behind an address of the mutable region is there, since the region ends long
before the addresses do. -/
theorem toNat_next (h : addr.toNat < m.capacity) : (addr + 1).toNat = addr.toNat + 1 := by
  have hcapacity := m.capacity_le
  have hlt : addr.toNat + 1 < 4294967296 := by
    simp only [rodataBase] at hcapacity
    omega
  rw [UInt32.toNat_add]
  exact Nat.mod_eq_of_lt hlt

theorem not_isReadOnly {a : Nat} (h : a < m.capacity) : ¬ m.IsReadOnly a := by
  have hcapacity := m.capacity_le
  intro hreadOnly
  have hbase := hreadOnly.1
  omega

theorem write_cons_eq_ok_iff {x y : UInt8} {bytes : List UInt8} :
    m.write addr (x :: y :: bytes) = .ok m' ↔
      ∃ mid, m.writeByte addr x = .ok mid ∧ mid.write (addr + 1) (y :: bytes) = .ok m' := by
  have hstored := stored_cons m addr.toNat x (y :: bytes)
  unfold writeByte
  simp only [write_eq_ok_iff, List.length_cons, List.length_nil]
  constructor
  · intro h
    obtain ⟨hreadOnly, hfits, hm'⟩ := h
    have hnext := toNat_next (show addr.toNat < m.capacity by omega)
    refine ⟨_, ⟨hreadOnly, by omega, rfl⟩, ?_, ?_, ?_⟩
    · exact not_isReadOnly (m := m) (by omega)
    · change (addr + 1).toNat + (bytes.length + 1) ≤ m.capacity
      omega
    · rw [hm', hstored, hnext]
  · intro h
    obtain ⟨mid, ⟨hreadOnly, hfirst, rfl⟩, -, hfits, hm'⟩ := h
    change (addr + 1).toNat + (bytes.length + 1) ≤ m.capacity at hfits
    have hnext := toNat_next (show addr.toNat < m.capacity by omega)
    refine ⟨hreadOnly, by omega, ?_⟩
    rw [hm', hstored, hnext]

theorem writeWord_eq_ok_iff {v : Int32} :
    m.writeWord addr v = .ok m' ↔ (do
      let m₁ ← m.writeByte addr (wordByte v 0)
      let m₂ ← m₁.writeByte (addr + 1) (wordByte v 1)
      let m₃ ← m₂.writeByte (addr + 2) (wordByte v 2)
      m₃.writeByte (addr + 3) (wordByte v 3)) = .ok m' := by
  have htwo : addr + 1 + 1 = addr + 2 := UInt32.add_assoc addr 1 1
  have hthree : addr + 2 + 1 = addr + 3 := UInt32.add_assoc addr 2 1
  rw [writeWord, toBytes_eq_wordBytes]
  simp only [Outcome.bind_eq_ok_iff, write_cons_eq_ok_iff, htwo, hthree]
  rfl

/-- **Bytes and words are views of one store.**  A word that is written lies over the memory with
its four bytes, and is read back; a literal that is copied lies over it with the bytes of its
range of the data segment.  A word that can be read is the word of the four bytes from its address
on.  A word can be written if and only if its bytes can be written one by one, and the memory is
then the same. -/
theorem views_of_one_store (m : Memory) (addr : UInt32) :
    (∀ v m', m.writeWord addr v = .ok m' →
      m.Overlays m' addr 4 (wordByte v) ∧ m'.readWord addr = .ok v) ∧
    (∀ src m', m.copyLiteral src addr = .ok m' → src.stop ≤ m.rodata.size ∧
      m.Overlays m' addr src.length.toNat (fun i => m.rodata.getD (src.start + i) 0)) ∧
    (∀ w, m.readWord addr = .ok w →
      ∃ byte, m.Holds addr 4 byte ∧ w = wordOf (byte 0) (byte 1) (byte 2) (byte 3)) ∧
    ∀ v m', m.writeWord addr v = .ok m' ↔ (do
      let m₁ ← m.writeByte addr (wordByte v 0)
      let m₂ ← m₁.writeByte (addr + 1) (wordByte v 1)
      let m₃ ← m₂.writeByte (addr + 2) (wordByte v 2)
      m₃.writeByte (addr + 3) (wordByte v 3)) = .ok m' := by
  refine ⟨?_, ?_, ?_, ?_⟩
  · intro v m' h
    exact ⟨overlays_of_writeWord h, readWord_of_writeWord h⟩
  · intro src m' h
    exact overlays_of_copyLiteral h
  · intro w h
    exact readWord_eq_ok h
  · intro v m'
    exact writeWord_eq_ok_iff

/-- Two words that overlap, and a word across both: it is read from one byte of the first and
three bytes of the second.  The byte in front of both and the data segment are as they were. -/
theorem views_of_one_store_overlap : ∃ m₁ m₂,
    (ofSize 12 #[7]).writeWord 3 (-2) = .ok m₁ ∧ m₁.writeWord 5 0x01020304 = .ok m₂ ∧
      m₂.readWord 5 = .ok 0x01020304 ∧ m₂.readByte 3 = .ok 0xfe ∧ m₂.readByte 8 = .ok 0x01 ∧
      m₂.readByte 2 = .ok 0 ∧ m₂.readByte 0x40000000 = .ok 7 ∧
      m₂.readWord 4 = .ok (wordOf 0xff 0x04 0x03 0x02) := by
  have hwrite : (ofSize 12 #[7]).writeWord 3 (-2) =
      .ok ((ofSize 12 #[7]).stored 3 [0xfe, 0xff, 0xff, 0xff]) := rfl
  have hwrite' : ((ofSize 12 #[7]).stored 3 [0xfe, 0xff, 0xff, 0xff]).writeWord 5 0x01020304 =
      .ok (((ofSize 12 #[7]).stored 3 [0xfe, 0xff, 0xff, 0xff]).stored 5 [4, 3, 2, 1]) := rfl
  obtain ⟨hfirst, -⟩ := (views_of_one_store _ _).1 _ _ hwrite
  obtain ⟨hsecond, hback⟩ := (views_of_one_store _ _).1 _ _ hwrite'
  refine ⟨_, _, hwrite, hwrite', hback, ?_, ?_, ?_, ?_, ?_⟩
  · exact (hsecond 3).trans (hfirst 3)
  · exact hsecond 8
  · exact (hsecond 2).trans (hfirst 2)
  · exact (hsecond 0x40000000).trans (hfirst 0x40000000)
  · rfl

end Memory

end Accumulator
