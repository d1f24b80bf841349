/-
  Accumulator/Proofs/Image.lean
  =============================
  **Images and programs stand for each other.**

  `Program.ofImage_eq_ok_iff` is the one fact this file is about: a byte string loads
  as a program exactly if the program can be stored, has no labels, and the byte
  string is its image.  A program can be stored if both segments keep to their limits
  and every instruction is canonical.

  Both round trips are readings of that fact.  From the program's side it gives the
  exact class of programs that survive being stored; from the side of the bytes it
  says that an image that loads is the only one that loads as this program.
-/
import Accumulator.Proofs.Bytecode
import Accumulator.Proofs.Outcome

namespace Accumulator

open Reader

namespace Image

/-- The bytes of an image behind magic and version. -/
def bodyBytes (code : Array Instr) (data : Array UInt8) : List UInt8 :=
  Word.toBytes 2 code.size ++ code.toList.flatMap Instr.encode ++ Word.toBytes 2 data.size ++
    data.toList

theorem accepts_readBody : Accepts readBody fun body bs =>
    body.code.size ≤ codeSegmentMax ∧ body.data.size ≤ dataSegmentMax ∧
      (∀ i ∈ body.code, i.Canonical) ∧ bs = bodyBytes body.code body.data := by
  refine (accepts_word16.bind fun count => (accepts_readCode count.toNat #[]).bind fun code =>
    accepts_word16.bind fun size => (accepts_take size.toNat).map fun data =>
      (⟨code, data.toArray⟩ : Body)).congr ?_
  intro body bs
  constructor
  · intro h
    obtain ⟨count, _, _, rfl, ⟨code, _, _, ⟨instrs, hcount, hall, rfl, rfl⟩,
      ⟨size, _, _, rfl, ⟨data, ⟨hsize, rfl⟩, rfl⟩, rfl⟩, rfl⟩, rfl⟩ := h
    have hcountLt := count.toNat_lt
    have hsizeLt := size.toNat_lt
    refine ⟨?_, ?_, ?_, ?_⟩
    · have hlen : instrs.length ≤ codeSegmentMax := by
        rw [hcount, codeSegmentMax]
        omega
      simpa using hlen
    · have hlen : data.length ≤ dataSegmentMax := by
        rw [hsize, dataSegmentMax]
        omega
      simpa using hlen
    · simpa using hall
    · simp [bodyBytes, hcount, hsize]
  · intro h
    obtain ⟨hcode, hdata, hall, rfl⟩ := h
    have hcount : (UInt16.ofNat body.code.size).toNat = body.code.size :=
      UInt16.toNat_ofNat_of_lt' (Nat.lt_succ_of_le hcode)
    have hsize : (UInt16.ofNat body.data.size).toNat = body.data.size :=
      UInt16.toNat_ofNat_of_lt' (Nat.lt_succ_of_le hdata)
    refine ⟨UInt16.ofNat body.code.size, _, _, rfl, ⟨body.code, _, _,
      ⟨body.code.toList, by simp [hcount], by simpa using hall, by simp, rfl⟩,
      ⟨UInt16.ofNat body.data.size, _, _, rfl,
        ⟨body.data.toList, ⟨by simp [hsize], rfl⟩, rfl⟩, rfl⟩, rfl⟩, ?_⟩
    simp [bodyBytes, hcount, hsize]

theorem run_eq_ok_iff {α : Type} {r : Reader α} {c c' : Cursor} {a : α} :
    run r c = .ok (a, c') ↔ r c = .ok a c' := by
  unfold run
  cases hr : r c with
  | ok b d => simp
  | error e d => simp

theorem check_eq_ok_iff {p : Prop} [Decidable p] {e : ImageError} {u : Unit} :
    check p e = .ok u ↔ p := by
  unfold check
  by_cases hp : p <;> simp [hp]

end Image

theorem DataSegment.ofBytes_eq_ok_iff {bytes : Array UInt8} {d : DataSegment} :
    DataSegment.ofBytes bytes = .ok d ↔ bytes.size ≤ dataSegmentMax ∧ d = ⟨bytes⟩ := by
  unfold DataSegment.ofBytes
  by_cases hfit : bytes.size ≤ dataSegmentMax <;> simp [hfit, eq_comm]

namespace Program

theorem ofSegments_eq_ok_iff {code : Array Instr} {data : DataSegment} {labels : LabelTable}
    {p : Program} :
    ofSegments code data labels = .ok p ↔
      code.size ≤ codeSegmentMax ∧ p = { code, data, labels } := by
  unfold ofSegments
  by_cases hfit : code.size ≤ codeSegmentMax <;> simp [hfit, eq_comm]

/-- Both segments keep to their limits and every instruction has a byte form of its own. -/
structure Storable (p : Program) : Prop where
  code_le : p.code.size ≤ codeSegmentMax
  data_le : p.data.size ≤ dataSegmentMax
  canonical : ∀ i ∈ p.code, i.Canonical

theorem toImage_eq (p : Program) :
    p.toImage = Image.magic ++ ([Image.version] ++ Image.bodyBytes p.code p.data.bytes) := by
  simp [toImage, Image.bodyBytes, DataSegment.size]

theorem eq_toImage_of_ofImage {bytes : List UInt8} {p : Program} (h : ofImage bytes = .ok p) :
    p.Storable ∧ p.labels = {} ∧ bytes = p.toImage := by
  have hstart := Cursor.inBounds_ofList bytes
  unfold ofImage ofImageWith at h
  obtain ⟨⟨magic, c₁⟩, hmagic, h⟩ := Outcome.bind_eq_ok_iff.mp h
  obtain ⟨_, hmagicEq, h⟩ := Outcome.bind_eq_ok_iff.mp h
  obtain ⟨⟨version, c₂⟩, hversion, h⟩ := Outcome.bind_eq_ok_iff.mp h
  obtain ⟨_, hversionEq, h⟩ := Outcome.bind_eq_ok_iff.mp h
  obtain ⟨⟨body, c₃⟩, hbody, h⟩ := Outcome.bind_eq_ok_iff.mp h
  obtain ⟨data, hdata, h⟩ := Outcome.bind_eq_ok_iff.mp h
  obtain ⟨_, hend, hprogram⟩ := Outcome.bind_eq_ok_iff.mp h
  -- what each of the three readings took from the front of what remained
  obtain ⟨_, rest₁, ⟨-, rfl⟩, hrem₁, rfl⟩ :=
    (accepts_take 4 _ hstart _ _).mp (Image.run_eq_ok_iff.mp hmagic)
  have hin₁ := hstart.advance hrem₁
  obtain ⟨_, rest₂, rfl, hrem₂, rfl⟩ :=
    (accepts_byte _ hin₁ _ _).mp (Image.run_eq_ok_iff.mp hversion)
  have hin₂ := hin₁.advance hrem₂
  obtain ⟨_, rest₃, ⟨hcode, hdataLe, hall, rfl⟩, hrem₃, rfl⟩ :=
    (Image.accepts_readBody _ hin₂ _ _).mp (Image.run_eq_ok_iff.mp hbody)
  have hin₃ := hin₂.advance hrem₃
  obtain rfl : rest₃ = [] := by
    rw [← Cursor.remaining_after hrem₃]
    exact hin₃.atEnd_iff.mp (Image.check_eq_ok_iff.mp hend)
  rw [Cursor.remaining_after hrem₂, List.append_nil] at hrem₃
  rw [Cursor.remaining_after hrem₁] at hrem₂
  rw [Cursor.remaining_ofList] at hrem₁
  obtain ⟨-, rfl⟩ := DataSegment.ofBytes_eq_ok_iff.mp (Outcome.mapError_eq_ok_iff.mp hdata)
  obtain ⟨-, rfl⟩ := ofSegments_eq_ok_iff.mp (Outcome.mapError_eq_ok_iff.mp hprogram)
  refine ⟨⟨hcode, hdataLe, hall⟩, rfl, ?_⟩
  rw [toImage_eq, ← Image.check_eq_ok_iff.mp hmagicEq, ← Image.check_eq_ok_iff.mp hversionEq,
    ← hrem₃, ← hrem₂, hrem₁]

theorem ofImage_toImage {p : Program} (h : p.Storable) (hlabels : p.labels = {}) :
    ofImage p.toImage = .ok p := by
  have hstart := Cursor.inBounds_ofList p.toImage
  have hrem₁ : (Cursor.ofList p.toImage).remaining =
      Image.magic ++ ([Image.version] ++ Image.bodyBytes p.code p.data.bytes) := by
    rw [Cursor.remaining_ofList, toImage_eq]
  have hin₁ := hstart.advance hrem₁
  have hrem₂ := Cursor.remaining_after hrem₁
  have hin₂ := hin₁.advance hrem₂
  have hrem₃ := Cursor.remaining_after hrem₂
  rw [← List.append_nil (Image.bodyBytes _ _)] at hrem₃
  have hin₃ := hin₂.advance hrem₃
  have hmagic := (accepts_take 4 _ hstart _ _).mpr ⟨_, _, ⟨rfl, rfl⟩, hrem₁, rfl⟩
  have hversion := (accepts_byte _ hin₁ _ _).mpr ⟨_, _, rfl, hrem₂, rfl⟩
  have hbody := (Image.accepts_readBody _ hin₂ ⟨p.code, p.data.bytes⟩ _).mpr
    ⟨_, _, ⟨h.code_le, h.data_le, h.canonical, rfl⟩, hrem₃, rfl⟩
  have hend := hin₃.atEnd_iff.mpr (Cursor.remaining_after hrem₃)
  unfold ofImage ofImageWith
  refine Outcome.bind_eq_ok_iff.mpr ⟨_, Image.run_eq_ok_iff.mpr hmagic, ?_⟩
  refine Outcome.bind_eq_ok_iff.mpr ⟨(), Image.check_eq_ok_iff.mpr rfl, ?_⟩
  refine Outcome.bind_eq_ok_iff.mpr ⟨_, Image.run_eq_ok_iff.mpr hversion, ?_⟩
  refine Outcome.bind_eq_ok_iff.mpr ⟨(), Image.check_eq_ok_iff.mpr rfl, ?_⟩
  refine Outcome.bind_eq_ok_iff.mpr ⟨_, Image.run_eq_ok_iff.mpr hbody, ?_⟩
  refine Outcome.bind_eq_ok_iff.mpr ⟨p.data, Outcome.mapError_eq_ok_iff.mpr
    (DataSegment.ofBytes_eq_ok_iff.mpr ⟨h.data_le, rfl⟩), ?_⟩
  refine Outcome.bind_eq_ok_iff.mpr ⟨(), Image.check_eq_ok_iff.mpr hend, ?_⟩
  refine Outcome.mapError_eq_ok_iff.mpr (ofSegments_eq_ok_iff.mpr ⟨h.code_le, ?_⟩)
  rw [← hlabels]

/-- A byte string loads as a program exactly if it is the image of the program, the program
has no labels and can be stored. -/
theorem ofImage_eq_ok_iff {bytes : List UInt8} {p : Program} :
    ofImage bytes = .ok p ↔ p.Storable ∧ p.labels = {} ∧ bytes = p.toImage := by
  constructor
  · exact eq_toImage_of_ofImage
  · intro h
    obtain ⟨hstorable, hlabels, rfl⟩ := h
    exact ofImage_toImage hstorable hlabels

end Program

end Accumulator
