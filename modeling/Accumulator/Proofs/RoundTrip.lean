/-
  Accumulator/Proofs/RoundTrip.lean
  =================================
  **Storing and loading programs.**

  A program that was stored comes back with its code and its data, and without its
  labels, exactly if no reserved instruction in it carries the opcode of an operation.
  Such an instruction is written as the bare opcode byte, which reads back as the
  operation and takes the bytes behind it for operands.  Neither the assembler nor
  loading ever produces one.

  In the other direction loading is exact: a byte string that loads is the image of
  what it loads as, so images have one spelling each.
-/
import Accumulator.Proofs.Assemble
import Accumulator.Proofs.Image

namespace Accumulator.Program

/-- The program comes back from its image, without its labels. -/
def Reloads (p : Program) : Prop :=
  ∃ q, ofImage p.toImage = .ok q ∧ q.code = p.code ∧ q.data = p.data ∧ q.labels.isEmpty = true

theorem canonical_iff {p : Program} :
    (∀ i ∈ p.code, i.Canonical) ↔ ∀ op, .reserved op ∈ p.code → op ∉ assignedOpcodes := by
  constructor
  · intro h op hmem
    exact Instr.canonical_reserved.mp (h _ hmem)
  · intro h i hmem op hi
    subst hi
    exact h op hmem

theorem Storable.reloads {p : Program} (h : p.Storable) : p.Reloads := by
  refine ⟨{ p with labels := {} }, ?_, rfl, rfl, rfl⟩
  apply ofImage_eq_ok_iff.mpr
  exact ⟨⟨h.code_le, h.data_le, h.canonical⟩, rfl, rfl⟩

theorem Reloads.canonical {p : Program} (h : p.Reloads) : ∀ i ∈ p.code, i.Canonical := by
  obtain ⟨q, hload, hcode, -, -⟩ := h
  obtain ⟨hstorable, -, -⟩ := ofImage_eq_ok_iff.mp hload
  rw [← hcode]
  exact hstorable.canonical

theorem storable_of_assemble {source : String} {p : Program} (h : assemble source = .ok p) :
    p.Storable := by
  obtain ⟨stmts, -, hassembled⟩ := Assembly.assembled_of_assemble h
  refine ⟨?_, hassembled.data_le, ?_⟩
  · rw [hassembled.code_size]
    exact hassembled.operations_le
  · intro i hi op hop
    subst hop
    exact absurd hi (hassembled.not_reserved op)

/-- **Which programs survive being stored.**  Within the segment limits these are the ones
without a reserved instruction that carries an assigned opcode; all that the assembler or
loading produces are among them. -/
theorem reloads_iff_reserved_unassigned :
    (∀ p : Program, p.code.size ≤ codeSegmentMax → p.data.size ≤ dataSegmentMax →
      (p.Reloads ↔ ∀ op, .reserved op ∈ p.code → op ∉ assignedOpcodes)) ∧
    (∀ source p, assemble source = .ok p → p.Reloads) ∧
    (∀ bytes p, ofImage bytes = .ok p → p.Reloads) := by
  refine ⟨?_, ?_, ?_⟩
  · intro p hcode hdata
    rw [← canonical_iff]
    constructor
    · intro h
      exact h.canonical
    · intro h
      exact Storable.reloads ⟨hcode, hdata, h⟩
  · intro source p h
    exact (storable_of_assemble h).reloads
  · intro bytes p h
    exact (ofImage_eq_ok_iff.mp h).1.reloads

/-- A reserved instruction with a free opcode comes back; one with the opcode of a jump does
not, since the two instructions behind it become its target. -/
theorem reloads_iff_reserved_unassigned_sample :
    Reloads { code := #[.reserved 0xff, .set (-1)], data := ⟨#[72, 0]⟩ } ∧
      ¬ Reloads { code := #[.reserved 0x02, .nop, .nop] } := by
  refine ⟨?_, ?_⟩
  · refine (reloads_iff_reserved_unassigned.1 _ (by decide) (by decide)).mpr ?_
    intro op hop
    obtain rfl : op = 0xff := by simpa using hop
    decide
  · intro h
    have hfree := (reloads_iff_reserved_unassigned.1 _ (by decide) (by decide)).mp h 0x02 (by simp)
    exact hfree (by decide)

/-- **Images are canonical.**  A byte string that loads is the image of what it loads as, so no
other byte string loads as the same code and data; what it loads as has no labels and no
reserved instruction that carries an assigned opcode. -/
theorem toImage_eq_of_ofImage {bytes : List UInt8} {p : Program} (h : ofImage bytes = .ok p) :
    p.toImage = bytes ∧ p.labels.isEmpty = true ∧
      (∀ op, .reserved op ∈ p.code → op ∉ assignedOpcodes) ∧
      ∀ bytes' p', ofImage bytes' = .ok p' → p'.code = p.code → p'.data = p.data →
        bytes' = bytes := by
  obtain ⟨hstorable, hlabels, rfl⟩ := ofImage_eq_ok_iff.mp h
  refine ⟨rfl, ?_, canonical_iff.mp hstorable.canonical, ?_⟩
  · rw [hlabels]
    rfl
  · intro bytes' p' h' hcode hdata
    obtain ⟨-, -, rfl⟩ := ofImage_eq_ok_iff.mp h'
    rw [toImage_eq, toImage_eq, hcode, hdata]

/-- An image with a jump, an unassigned opcode and one byte of data. -/
theorem toImage_eq_of_ofImage_sample :
    ∃ p, ofImage [0x41, 0x43, 0x56, 0x4d, 1, 2, 0, 0x02, 5, 0, 0xff, 1, 0, 9] = .ok p ∧
      p.code = #[.jump 5, .reserved 0xff] ∧
      p.toImage = [0x41, 0x43, 0x56, 0x4d, 1, 2, 0, 0x02, 5, 0, 0xff, 1, 0, 9] ∧
      0xff ∉ assignedOpcodes := by
  have hrun : (ofImage [0x41, 0x43, 0x56, 0x4d, 1, 2, 0, 0x02, 5, 0, 0xff, 1, 0, 9]).map code =
      .ok #[.jump 5, .reserved 0xff] := by
    decide
  obtain ⟨p, hp, hcode⟩ := Outcome.map_eq_ok_iff.mp hrun
  obtain ⟨himage, -, hreserved, -⟩ := toImage_eq_of_ofImage hp
  exact ⟨p, hp, hcode, himage, hreserved 0xff (by simp [hcode])⟩

end Accumulator.Program
