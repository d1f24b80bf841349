/-
  Accumulator/Proofs/Truncation.lean
  ==================================
  **What is wrong with a byte string that is no image.**

  A reader of bytecode fails in one way only, by running out of bytes.  `Completes` says
  that this is meant literally: whatever bytes there are, either they start with
  something that the reader takes, or they are a proper part from the front of something
  that it takes.  Completing composes like accepting does, so it reaches from words to
  instructions and from there to the whole body of an image without a word about where
  the bytes were cut.

  Beside it stands what every accepting reader has anyway: no byte string that it takes
  goes on in another one (`Accepts.eq_of_prefix`).  Together they place every byte string
  behind magic and version: it is the body of an image, a body that was cut off, or a
  body with more behind it (`Program.ofImage_trichotomy`).
-/
import Accumulator.Proofs.Image

namespace Accumulator

namespace Reader

variable {α β : Type} {r : Reader α} {F G : α → List UInt8 → Prop}

/-! ### Byte strings that go on -/

theorem Accepts.rel_iff (h : Accepts r F) {a : α} {bs : List UInt8} :
    F a bs ↔ r (.ofList bs) = .ok a ((Cursor.ofList bs).advance bs.length) := by
  rw [h _ (Cursor.inBounds_ofList bs)]
  constructor
  · intro hF
    exact ⟨bs, [], hF, by simp, rfl⟩
  · rintro ⟨front, rest, hF, hsplit, hend⟩
    have hlength : bs.length = front.length := by
      simpa [Cursor.advance] using congrArg Cursor.pos hend
    rw [Cursor.remaining_ofList] at hsplit
    have hrest : rest = [] := by
      have hsum := congrArg List.length hsplit
      rw [List.length_append] at hsum
      exact List.length_eq_zero_iff.mp (by omega)
    rwa [hsplit, hrest, List.append_nil]

theorem Accepts.unique (h : Accepts r F) (h' : Accepts r G) : F = G := by
  funext a bs
  rw [h.rel_iff, h'.rel_iff]

/-- No accepted byte string goes on in another one. -/
theorem Accepts.eq_of_prefix (h : Accepts r F) {a b : α} {bs bs' : List UInt8} (hF : F a bs)
    (hF' : F b bs') (hfront : bs <+: bs') : bs = bs' := by
  obtain ⟨rest, hrest⟩ := hfront
  have hc := Cursor.inBounds_ofList bs'
  have hshort := (h _ hc a _).mpr ⟨bs, rest, hF, by rw [Cursor.remaining_ofList, hrest], rfl⟩
  rw [h.rel_iff.mp hF'] at hshort
  injection hshort with _ hend
  have hlength : bs'.length = bs.length := by
    simpa [Cursor.advance] using congrArg Cursor.pos hend
  exact List.IsPrefix.eq_of_length ⟨rest, hrest⟩ hlength.symm

/-! ### Readers that lack nothing but bytes -/

/-- Every byte string starts with a related one, or goes on to one. -/
def Saturated (F : α → List UInt8 → Prop) : Prop :=
  ∀ bytes, (∃ a front back, F a front ∧ bytes = front ++ back) ∨
    ∃ a more, more ≠ [] ∧ F a (bytes ++ more)

theorem Saturated.exists_rel (h : Saturated F) : ∃ a bs, F a bs := by
  rcases h [] with ⟨a, front, -, hF, -⟩ | ⟨a, more, -, hF⟩
  · exact ⟨a, front, hF⟩
  · exact ⟨a, more, hF⟩

/-- The reader fails only where bytes are missing: more of them would make it succeed. -/
def Completes (r : Reader α) : Prop := ∃ F, Accepts r F ∧ Saturated F

theorem Completes.saturated (h : Completes r) (hF : Accepts r F) : Saturated F := by
  obtain ⟨G, hG, hsaturated⟩ := h
  rwa [hF.unique hG]

theorem completes_pure (a : α) : Completes (pure a) :=
  ⟨_, accepts_pure a, fun bytes => .inl ⟨a, [], bytes, ⟨rfl, rfl⟩, rfl⟩⟩

theorem Completes.bind {k : α → Reader β} (hr : Completes r) (hk : ∀ a, Completes (k a)) :
    Completes (r >>= k) := by
  obtain ⟨F, haccepts, hF⟩ := hr
  choose G hkaccepts hG using hk
  refine ⟨_, haccepts.bind hkaccepts, ?_⟩
  intro bytes
  rcases hF bytes with ⟨a, front, back, hfront, rfl⟩ | ⟨a, more, hmore, hfront⟩
  · -- the first reader is served, so what is behind it decides
    rcases hG a back with ⟨b, mid, rest, hmid, rfl⟩ | ⟨b, more, hmore, hmid⟩
    · exact .inl ⟨b, front ++ mid, rest, ⟨a, front, mid, hfront, hmid, rfl⟩, by simp⟩
    · exact .inr ⟨b, more, hmore, a, front, back ++ more, hfront, hmid, by simp⟩
  · obtain ⟨b, next, hnext⟩ := (hG a).exists_rel
    exact .inr ⟨b, more ++ next, by simp [hmore], a, _, next, hfront, hnext, by simp⟩

theorem Completes.map (hr : Completes r) (f : α → β) : Completes (r >>= fun a => pure (f a)) :=
  hr.bind fun a => completes_pure (f a)

theorem completes_take (n : Nat) : Completes (take n) := by
  refine ⟨_, accepts_take n, ?_⟩
  intro bytes
  by_cases hlength : n ≤ bytes.length
  · exact .inl ⟨_, bytes.take n, bytes.drop n, ⟨by simp [hlength], rfl⟩, by simp⟩
  · refine .inr ⟨_, List.replicate (n - bytes.length) 0, ?_, ?_, rfl⟩
    · rw [ne_eq, List.replicate_eq_nil_iff]
      omega
    · rw [List.length_append, List.length_replicate]
      omega

theorem completes_byte : Completes byte := (completes_take 1).map _

theorem completes_word16 : Completes word16 := (completes_take 2).map _

theorem completes_word32 : Completes word32 := (completes_take 4).map _

end Reader

open Reader

theorem Form.completes_read (form : Form) : Completes form.read := by
  cases form with
  | plain instr => exact completes_pure instr
  | target make => exact completes_word16.map make
  | immediate make => exact completes_word32.map fun w => make w.toInt32
  | register make => exact completes_byte.map make
  | registerImmediate make =>
    exact completes_byte.bind fun reg => completes_word32.map fun w => make reg w.toInt32
  | address make => exact completes_word32.map make
  | literal make =>
    exact completes_word16.bind fun offset => completes_word16.map fun length =>
      make ⟨offset, length⟩
  | number make => exact completes_byte.map make

theorem Instr.completes_read : Completes Instr.read :=
  completes_byte.bind fun op => (Form.ofOpcode op).completes_read

namespace Image

theorem completes_readCode (n : Nat) (done : Array Instr) : Completes (readCode n done) := by
  induction n generalizing done with
  | zero => exact completes_pure done
  | succ n ih => exact Instr.completes_read.bind fun i => ih (done.push i)

theorem completes_readBody : Completes readBody :=
  completes_word16.bind fun count => (completes_readCode count.toNat #[]).bind fun code =>
    completes_word16.bind fun size => (completes_take size.toNat).map fun data =>
      (⟨code, data.toArray⟩ : Body)

/-- The bytes of the two segments, if they keep to their limits and every instruction has a
byte form. -/
def IsBody (body : Body) (bs : List UInt8) : Prop :=
  body.code.size ≤ codeSegmentMax ∧ body.data.size ≤ dataSegmentMax ∧
    (∀ i ∈ body.code, i.Canonical) ∧ bs = bodyBytes body.code body.data

theorem saturated_isBody : Saturated IsBody := completes_readBody.saturated accepts_readBody

theorem IsBody.eq_of_prefix {body body' : Body} {bs bs' : List UInt8} (h : IsBody body bs)
    (h' : IsBody body' bs') (hfront : bs <+: bs') : bs = bs' :=
  accepts_readBody.eq_of_prefix h h' hfront

variable {α : Type} {r : Reader α} {F : α → List UInt8 → Prop} {c : Cursor}

theorem run_of_accepts (hr : Accepts r F) (hc : c.InBounds) {a : α} {bs rest : List UInt8}
    (hF : F a bs) (hrest : c.remaining = bs ++ rest) :
    run r c = .ok (a, c.advance bs.length) :=
  run_eq_ok_iff.mpr ((hr c hc a _).mpr ⟨bs, rest, hF, hrest, rfl⟩)

theorem run_of_rejects (hr : Accepts r F) (hc : c.InBounds)
    (h : ∀ a front back, F a front → c.remaining ≠ front ++ back) :
    run r c = .error .truncated := by
  unfold run
  rcases hresult : r c with ⟨a, c'⟩ | ⟨e, c'⟩
  · obtain ⟨front, back, hF, hrest, -⟩ := (hr c hc a c').mp hresult
    exact absurd hrest (h a front back hF)
  · rfl

end Image

/-! ### Images -/

namespace Program

open Image

/-- The bytes in front of the body of an image. -/
def header : List UInt8 := magic ++ [version]

theorem toImage_eq_header (p : Program) :
    p.toImage = header ++ bodyBytes p.code p.data.bytes := by
  rw [toImage_eq, header, List.append_assoc]

theorem ofImage_of_short {bytes : List UInt8} (h : bytes.length < 4) :
    ofImage bytes = .error .truncated := by
  have hrun : run (Reader.take 4) (Cursor.ofList bytes) = .error .truncated := by
    refine run_of_rejects (accepts_take 4) (Cursor.inBounds_ofList bytes) ?_
    rintro a front back ⟨hlength, -⟩ hsplit
    rw [Cursor.remaining_ofList] at hsplit
    rw [hsplit, List.length_append] at h
    omega
  unfold ofImage ofImageWith
  rw [hrun]
  rfl

/-- What comes of an image once its first four bytes are read. -/
theorem ofImage_append {front rest : List UInt8} (h : front.length = 4) :
    ∃ c : Cursor, c.InBounds ∧ c.remaining = rest ∧ ofImage (front ++ rest) =
      (do
        check (front = magic) .noMagic
        let (version, c) ← run Reader.byte c
        check (version = Image.version) (.version version)
        let (body, c) ← run readBody c
        let data ← (DataSegment.ofBytes body.data).mapError .segment
        check c.atEnd (.trailingData c.remaining.length)
        (Program.ofSegments body.code data {}).mapError .segment) := by
  have hsplit := Cursor.remaining_ofList (front ++ rest)
  have hstart := Cursor.inBounds_ofList (front ++ rest)
  refine ⟨_, hstart.advance hsplit, Cursor.remaining_after hsplit, ?_⟩
  have hrun := run_of_accepts (accepts_take 4) hstart ⟨h, rfl⟩ hsplit
  rw [ofImage, ofImageWith, hrun]
  rfl

theorem ofImage_of_not_magic {bytes : List UInt8} (h : 4 ≤ bytes.length)
    (hmagic : ¬ magic <+: bytes) : ofImage bytes = .error .noMagic := by
  have hlength : (bytes.take 4).length = 4 := List.length_take_of_le h
  obtain ⟨c, -, -, heq⟩ := @ofImage_append _ (bytes.drop 4) hlength
  have hne : bytes.take 4 ≠ magic := by
    intro htake
    exact hmagic (htake ▸ List.take_prefix 4 bytes)
  rw [List.take_append_drop] at heq
  rw [heq, check, if_neg hne]
  rfl

/-- What comes of an image once its magic and the version byte are read. -/
theorem ofImage_magic_append (v : UInt8) (rest : List UInt8) :
    ∃ c : Cursor, c.InBounds ∧ c.remaining = rest ∧ ofImage (magic ++ v :: rest) =
      (do
        check (v = Image.version) (.version v)
        let (body, c) ← run readBody c
        let data ← (DataSegment.ofBytes body.data).mapError .segment
        check c.atEnd (.trailingData c.remaining.length)
        (Program.ofSegments body.code data {}).mapError .segment) := by
  obtain ⟨c, hc, hrest, heq⟩ := @ofImage_append magic (v :: rest) rfl
  have hsplit : c.remaining = [v] ++ rest := hrest
  refine ⟨_, hc.advance hsplit, Cursor.remaining_after hsplit, ?_⟩
  rw [heq, run_of_accepts accepts_byte hc rfl hsplit, check, if_pos rfl]
  rfl

theorem ofImage_of_version {v : UInt8} (h : v ≠ Image.version) (rest : List UInt8) :
    ofImage (magic ++ v :: rest) = .error (.version v) := by
  obtain ⟨c, -, -, heq⟩ := ofImage_magic_append v rest
  rw [heq, check, if_neg h]
  rfl

theorem ofImage_of_unfinished {rest : List UInt8}
    (h : ∀ body front back, IsBody body front → rest ≠ front ++ back) :
    ofImage (header ++ rest) = .error .truncated := by
  obtain ⟨c, hc, hrest, heq⟩ := ofImage_magic_append Image.version rest
  have hrun : run readBody c = .error .truncated := by
    refine run_of_rejects accepts_readBody hc ?_
    rw [hrest]
    exact h
  rw [header, List.append_assoc, List.singleton_append, heq, check, if_pos rfl, hrun]
  rfl

theorem ofImage_of_trailing {p : Program} (hp : p.Storable) {tail : List UInt8}
    (htail : tail ≠ []) : ofImage (p.toImage ++ tail) = .error (.trailingData tail.length) := by
  obtain ⟨c, hc, hrest, heq⟩ :=
    ofImage_magic_append Image.version (bodyBytes p.code p.data.bytes ++ tail)
  have hbody : IsBody ⟨p.code, p.data.bytes⟩ (bodyBytes p.code p.data.bytes) :=
    ⟨hp.code_le, hp.data_le, hp.canonical, rfl⟩
  have hdata : DataSegment.ofBytes p.data.bytes = .ok p.data :=
    DataSegment.ofBytes_eq_ok_iff.mpr ⟨hp.data_le, rfl⟩
  have hend : ¬ (c.advance (bodyBytes p.code p.data.bytes).length).atEnd = true := by
    rw [(hc.advance hrest).atEnd_iff, Cursor.remaining_after hrest]
    exact htail
  rw [toImage_eq_header, header, List.append_assoc, List.append_assoc, List.singleton_append, heq,
    check, if_pos rfl, run_of_accepts accepts_readBody hc hbody hrest]
  simp only [bind, Except.bind, hdata, Except.mapError, check, if_neg hend,
    Cursor.remaining_after hrest]

theorem ofImage_magic : ofImage magic = .error .truncated := by
  obtain ⟨c, hc, hrest, heq⟩ := @ofImage_append magic [] rfl
  have hrun : run Reader.byte c = .error .truncated := by
    refine run_of_rejects accepts_byte hc ?_
    rintro b front back rfl
    simp [hrest]
  rw [List.append_nil] at heq
  rw [heq, check, if_pos rfl, hrun]
  rfl

/-- **Where a byte string stands.**  With magic and version in front it is an image, the start
of one that was cut off, or one with more behind it. -/
theorem ofImage_trichotomy {bytes : List UInt8} (h : header <+: bytes) :
    (∃ p, ofImage bytes = .ok p) ∨
      (ofImage bytes = .error .truncated ∧
        ∃ more p, more ≠ [] ∧ ofImage (bytes ++ more) = .ok p) ∨
      ∃ image tail p, tail ≠ [] ∧ bytes = image ++ tail ∧ ofImage image = .ok p ∧
        ofImage bytes = .error (.trailingData tail.length) := by
  obtain ⟨rest, rfl⟩ := h
  rcases saturated_isBody rest with
    ⟨⟨code, data⟩, front, back, hbody, rfl⟩ | ⟨⟨code, data⟩, more, hmore, hbody⟩
  · obtain ⟨hcode, hdata, hall, rfl⟩ := hbody
    have hstorable : Storable { code, data := ⟨data⟩ } := ⟨hcode, hdata, hall⟩
    have hload := ofImage_toImage hstorable rfl
    have himage := toImage_eq_header { code, data := ⟨data⟩ }
    rw [← List.append_assoc, ← himage]
    by_cases hback : back = []
    · exact .inl ⟨_, by rw [hback, List.append_nil, hload]⟩
    · exact .inr (.inr ⟨_, back, _, hback, rfl, hload, ofImage_of_trailing hstorable hback⟩)
  · refine .inr (.inl ⟨?_, more, { code, data := ⟨data⟩ }, hmore, ?_⟩)
    · apply ofImage_of_unfinished
      rintro body front back hfront rfl
      have heq := hfront.eq_of_prefix hbody (by
        rw [List.append_assoc]
        exact List.prefix_append _ _)
      simp [hmore] at heq
    · obtain ⟨hcode, hdata, hall, hbytes⟩ := hbody
      rw [List.append_assoc, hbytes, ← toImage_eq_header { code, data := ⟨data⟩ }]
      exact ofImage_toImage ⟨hcode, hdata, hall⟩ rfl

theorem ofImage_of_cut {p : Program} (hp : p.Storable) {front back : List UInt8}
    (hback : back ≠ []) (h : p.toImage = front ++ back) :
    ofImage front = .error .truncated := by
  have hfront : front <+: p.toImage := ⟨back, h.symm⟩
  have hheader : header <+: p.toImage := ⟨_, (toImage_eq_header p).symm⟩
  rcases Nat.lt_trichotomy front.length 4 with hshort | hfour | hlong
  · exact ofImage_of_short hshort
  · have hmagic : magic <+: p.toImage := (List.prefix_append magic [version]).trans hheader
    have heq : front = magic :=
      (List.prefix_of_prefix_length_le hfront hmagic (Nat.le_of_eq hfour)).eq_of_length hfour
    rw [heq]
    exact ofImage_magic
  · -- the cut lies in the body, where only the whole body is one
    obtain ⟨rest, rfl⟩ := List.prefix_of_prefix_length_le hheader hfront hlong
    rw [toImage_eq_header, List.append_assoc] at h
    have hwhole : IsBody ⟨p.code, p.data.bytes⟩ (rest ++ back) :=
      ⟨hp.code_le, hp.data_le, hp.canonical, (List.append_cancel_left h).symm⟩
    apply ofImage_of_unfinished
    rintro body front' back' hfront' rfl
    have heq := hfront'.eq_of_prefix hwhole (by
      rw [List.append_assoc]
      exact List.prefix_append _ _)
    simp [hback] at heq

/-- The counts of an image are words, so no segment that it describes is too large. -/
theorem ofImage_ne_segment (bytes : List UInt8) (e : SegmentError) :
    ofImage bytes ≠ .error (.segment e) := by
  intro h
  by_cases hshort : bytes.length < 4
  · cases h.symm.trans (ofImage_of_short hshort)
  by_cases hmagic : magic <+: bytes
  · obtain ⟨rest, rfl⟩ := hmagic
    rcases rest with _ | ⟨v, rest⟩
    · rw [List.append_nil] at h
      cases h.symm.trans ofImage_magic
    · by_cases hversion : v = version
      · have hheader : header <+: magic ++ v :: rest := ⟨rest, by simp [header, hversion]⟩
        rcases ofImage_trichotomy hheader with ⟨p, hp⟩ | ⟨hp, -⟩ | ⟨_, _, _, _, _, _, hp⟩
        all_goals cases h.symm.trans hp
      · cases h.symm.trans (ofImage_of_version hversion rest)
  · cases h.symm.trans (ofImage_of_not_magic (Nat.le_of_not_lt hshort) hmagic)

/-- **What is wrong with a byte string that is no image.**  Magic and version are looked at
first, whatever follows them.  Of what has both, an image is cut off at every place in the
same way and is told from what follows it, so no image goes on in another one; and there is
nothing else: it is an image, the start of one, or one with more behind it. -/
theorem ofImage_verdict :
    (∀ bytes e, ofImage bytes ≠ .error (.segment e)) ∧
    (∀ bytes, bytes.length < 4 → ofImage bytes = .error .truncated) ∧
    (∀ bytes, 4 ≤ bytes.length → ¬ magic <+: bytes → ofImage bytes = .error .noMagic) ∧
    (∀ v rest, v ≠ version → ofImage (magic ++ v :: rest) = .error (.version v)) ∧
    (∀ image p, ofImage image = .ok p →
      (∀ front, front <+: image → front ≠ image → ofImage front = .error .truncated) ∧
      (∀ tail, tail ≠ [] → ofImage (image ++ tail) = .error (.trailingData tail.length)) ∧
      ∀ image' p', ofImage image' = .ok p' → image <+: image' → image = image') ∧
    ∀ bytes, magic ++ [version] <+: bytes →
      (∃ p, ofImage bytes = .ok p) ∨
      (ofImage bytes = .error .truncated ∧
        ∃ more p, more ≠ [] ∧ ofImage (bytes ++ more) = .ok p) ∨
      ∃ image tail p, tail ≠ [] ∧ bytes = image ++ tail ∧ ofImage image = .ok p ∧
        ofImage bytes = .error (.trailingData tail.length) := by
  have hcut : ∀ image p, ofImage image = .ok p → ∀ front, front <+: image → front ≠ image →
      ofImage front = .error .truncated := by
    rintro image p himage front ⟨back, hback⟩ hne
    obtain ⟨hstorable, -, rfl⟩ := ofImage_eq_ok_iff.mp himage
    refine ofImage_of_cut hstorable ?_ hback.symm
    rintro rfl
    exact hne (by rw [← hback, List.append_nil])
  refine ⟨ofImage_ne_segment, fun _ => ofImage_of_short, fun _ => ofImage_of_not_magic,
    fun _ rest h => ofImage_of_version h rest, ?_, fun _ => ofImage_trichotomy⟩
  intro image p himage
  refine ⟨hcut image p himage, ?_, ?_⟩
  · intro tail htail
    obtain ⟨hstorable, -, rfl⟩ := ofImage_eq_ok_iff.mp himage
    exact ofImage_of_trailing hstorable htail
  · intro image' p' himage' hfront
    by_contra hne
    have herror := hcut image' p' himage' image hfront hne
    rw [himage] at herror
    cases herror

/-- An image with a jump, cut inside the target of the jump, and with a byte behind it; another
version of it; and another file. -/
theorem ofImage_verdict_sample :
    (∃ p, ofImage [0x41, 0x43, 0x56, 0x4d, 1, 1, 0, 0x02, 5, 0, 0, 0] = .ok p) ∧
      ofImage [0x41, 0x43, 0x56, 0x4d, 1, 1, 0, 0x02, 5] = .error .truncated ∧
      ofImage [0x41, 0x43, 0x56, 0x4d, 1, 1, 0, 0x02, 5, 0, 0, 0, 7] = .error (.trailingData 1) ∧
      ofImage [0x41, 0x43, 0x56, 0x4d, 2, 1, 0] = .error (.version 2) ∧
      ofImage [0x7f, 0x45, 0x4c, 0x46, 2] = .error .noMagic ∧
      ofImage [0x41, 0x43, 0x56] = .error .truncated := by
  have hload : ((ofImage [0x41, 0x43, 0x56, 0x4d, 1, 1, 0, 0x02, 5, 0, 0, 0]).map code) =
      .ok #[.jump 5] := by
    decide
  obtain ⟨p, hp, -⟩ := Outcome.map_eq_ok_iff.mp hload
  obtain ⟨-, hshort, hmagic, hversion, himage, -⟩ := ofImage_verdict
  obtain ⟨hcut, htail, -⟩ := himage _ p hp
  exact ⟨⟨p, hp⟩, hcut _ (by decide) (by decide), htail [7] (by decide),
    hversion 2 [1, 0] (by decide), hmagic _ (by decide) (by decide), hshort _ (by decide)⟩

end Program

end Accumulator
