import CoralReef.Codegen.NagaTranslate.Resources

/-!
# When resources are kept apart

On NVIDIA a word is told by group and binding, as long as both fit. On AMD the group is not part of
the word, and the length of an array is read where the address of the next binding begins.
-/

namespace CoralReef.NagaTranslate

variable {access : ResourceAccess}

/-- Whether an access asks for the length of an array. -/
def ResourceAccess.isLength : ResourceAccess → Bool
  | .address _ => false
  | .arrayLength _ _ => true

/-- The bytes past the start of its binding that an access reads at. -/
def ResourceAccess.parts : ResourceAccess → List Nat
  | .address _ => [0, 4]
  | .arrayLength _ _ => [8]

/-- An access is translated to instructions that read this constant buffer. -/
def ResourceAccess.Reads (isAmd : Bool) (access : ResourceAccess) (cb : CBufRef) : Prop :=
  ∃ ssaAlloc vec instrs ssaAlloc', access.translate isAmd ssaAlloc = .ok (vec, instrs, ssaAlloc') ∧
    cb ∈ cbufsRead instrs

/-- Every access reads the word of its own resource: no number is cut on the way to it, on AMD it
names one of the 106 scalar registers, and no two accesses share a word unless they ask the same
of one resource. -/
structure KeptApart (isAmd : Bool) (accesses : List ResourceAccess) : Prop where
  whole : ∀ access ∈ accesses, ∀ cb, access.Reads isAmd cb →
    ∃ part ∈ access.parts, cb.buf = .binding access.resource.group ∧
      cb.offset = access.resource.binding * bindingStride isAmd + part
  scalar : isAmd → ∀ access ∈ accesses, ∀ cb word, access.Reads isAmd cb →
    cbufWord isAmd cb = .ok word → word.2 < 106
  apart : ∀ a ∈ accesses, ∀ b ∈ accesses, ∀ cb cb' word, a.Reads isAmd cb → b.Reads isAmd cb' →
    cbufWord isAmd cb = .ok word → cbufWord isAmd cb' = .ok word →
      a.resource = b.resource ∧ a.isLength = b.isLength

/-- What has to hold of the bindings: they fit, and on AMD no two groups use one binding number
and no array whose length is asked for is followed by another resource. -/
structure BindingsFit (isAmd : Bool) (accesses : List ResourceAccess) : Prop where
  group_lt : ∀ access ∈ accesses, access.resource.group < 2 ^ 8
  offset_lt : ∀ access ∈ accesses, access.resource.binding * bindingStride isAmd +
    (if access.isLength then 8 else 0) < 2 ^ 16
  scalar_lt : isAmd → ∀ access ∈ accesses,
    access.resource.binding * 2 + (if access.isLength then 2 else 1) < 106
  one_group : isAmd → ∀ a ∈ accesses, ∀ b ∈ accesses, a.isLength = b.isLength →
    a.resource.binding = b.resource.binding → a.resource.group = b.resource.group
  no_next : isAmd → ∀ a ∈ accesses, ∀ b ∈ accesses, a.isLength → b.isLength = false →
    b.resource.binding ≠ a.resource.binding + 1

theorem cbufsRead_globalVariable (isAmd : Bool) (rb : ResourceBinding)
    (ssaAlloc : SSAValueAllocator) :
    cbufsRead (translateGlobalVariable isAmd (some rb) ssaAlloc).2.1 =
      [bindingCBuf isAmd rb 0, bindingCBuf isAmd rb 4] := by
  have high : (bindingCBuf isAmd rb 0).offset + 4 = (bindingCBuf isAmd rb 4).offset := by
    simp only [bindingCBuf, bindingStride]
    cases isAmd
    · simp only [Bool.false_eq_true, if_false]
      omega
    · simp only [if_true]
      omega
  have read : cbufsRead (translateGlobalVariable isAmd (some rb) ssaAlloc).2.1 =
      [bindingCBuf isAmd rb 0,
        { bindingCBuf isAmd rb 0 with offset := (bindingCBuf isAmd rb 0).offset + 4 }] := rfl
  rw [read, high]
  rfl

theorem cbufsRead_arrayLength {isAmd : Bool} {rb : ResourceBinding} {elementStride : Nat}
    {ssaAlloc ssaAlloc' : SSAValueAllocator} {vec : SSARef} {instrs : List Instr}
    (translated : translateArrayLength isAmd (some rb) elementStride ssaAlloc =
      .ok (vec, instrs, ssaAlloc')) : cbufsRead instrs = [bindingCBuf isAmd rb 8] := by
  simp only [translateArrayLength] at translated
  split at translated <;> cases translated <;> rfl

theorem cbufsRead_translate {isAmd : Bool} {ssaAlloc ssaAlloc' : SSAValueAllocator} {vec : SSARef}
    {instrs : List Instr}
    (translated : access.translate isAmd ssaAlloc = .ok (vec, instrs, ssaAlloc')) :
    cbufsRead instrs = access.parts.map (bindingCBuf isAmd access.resource) := by
  cases access with
  | address rb =>
    have made := Except.ok.inj translated
    have read := cbufsRead_globalVariable isAmd rb ssaAlloc
    rwa [made] at read
  | arrayLength rb elementStride => exact cbufsRead_arrayLength translated

theorem translate_returns (isAmd : Bool) (access : ResourceAccess) (ssaAlloc : SSAValueAllocator) :
    ∃ vec instrs ssaAlloc', access.translate isAmd ssaAlloc = .ok (vec, instrs, ssaAlloc') := by
  cases access with
  | address rb => exact ⟨_, _, _, rfl⟩
  | arrayLength rb elementStride =>
    simp only [ResourceAccess.translate, translateArrayLength]
    split <;> exact ⟨_, _, _, rfl⟩

/-- An access reads the constant buffer of its binding, at each of its parts. -/
theorem reads_iff {isAmd : Bool} {cb : CBufRef} :
    access.Reads isAmd cb ↔ ∃ part ∈ access.parts,
      bindingCBuf isAmd access.resource part = cb := by
  rw [← List.mem_map]
  constructor
  · rintro ⟨ssaAlloc, vec, instrs, ssaAlloc', translated, member⟩
    rwa [cbufsRead_translate translated] at member
  · intro member
    obtain ⟨vec, instrs, ssaAlloc', translated⟩ := translate_returns isAmd access {}
    refine ⟨{}, vec, instrs, ssaAlloc', translated, ?_⟩
    rwa [cbufsRead_translate translated]

/-- The part of an access that lies furthest in its binding. -/
theorem part_le {part : Nat} (isPart : part ∈ access.parts) :
    if access.isLength then part = 8 else part = 0 ∨ part = 4 := by
  cases access <;> simpa [ResourceAccess.parts, ResourceAccess.isLength] using isPart

section

variable {isAmd : Bool} {accesses : List ResourceAccess}

/-- Numbers that fit are not cut. -/
theorem BindingsFit.bindingCBuf_eq (fit : BindingsFit isAmd accesses) {access : ResourceAccess}
    (member : access ∈ accesses) {part : Nat} (isPart : part ∈ access.parts) :
    bindingCBuf isAmd access.resource part =
      { buf := .binding access.resource.group
        offset := access.resource.binding * bindingStride isAmd + part } := by
  have group := fit.group_lt access member
  have offset := fit.offset_lt access member
  have parts := part_le isPart
  rw [bindingCBuf, Nat.mod_eq_of_lt group]
  congr 1
  rw [bindingStride] at offset ⊢
  cases length : access.isLength <;> simp only [length, if_true, Bool.false_eq_true, if_false]
    at offset parts
  · cases isAmd <;> simp only [if_true, Bool.false_eq_true, if_false] at offset ⊢ <;> omega
  · omega

theorem cbufWord_binding (isAmd : Bool) (group offset : Nat) :
    cbufWord isAmd { buf := .binding group, offset } =
      .ok (if isAmd then 0 else group, offset / 4) := by
  cases isAmd <;> rfl

/-- What two accesses that share a word have in common, when the bindings fit. -/
theorem BindingsFit.sameKind (fit : BindingsFit isAmd accesses) {a b : ResourceAccess}
    (isA : a ∈ accesses) (isB : b ∈ accesses) {part part' : Nat} (isPart : part ∈ a.parts)
    (isPart' : part' ∈ b.parts)
    (same : (a.resource.binding * bindingStride isAmd + part) / 4 =
      (b.resource.binding * bindingStride isAmd + part') / 4) :
    a.isLength = b.isLength ∧ a.resource.binding = b.resource.binding := by
  have place := part_le isPart
  have place' := part_le isPart'
  rw [bindingStride] at same
  have nextOf : isAmd → a.isLength → b.isLength = false →
      b.resource.binding ≠ a.resource.binding + 1 :=
    fun amd length address => fit.no_next amd a isA b isB length address
  have nextOf' : isAmd → b.isLength → a.isLength = false →
      a.resource.binding ≠ b.resource.binding + 1 :=
    fun amd length address => fit.no_next amd b isB a isA length address
  cases isAmd <;> cases length : a.isLength <;> cases length' : b.isLength <;>
    simp only [length, length', if_true, Bool.false_eq_true, Bool.true_eq_false, if_false,
      forall_const, true_and, false_and] at nextOf nextOf' place place' same ⊢ <;> omega

theorem BindingsFit.keptApart (fit : BindingsFit isAmd accesses) : KeptApart isAmd accesses := by
  constructor
  · intro access member cb reads
    obtain ⟨part, isPart, rfl⟩ := reads_iff.mp reads
    rw [fit.bindingCBuf_eq member isPart]
    exact ⟨part, isPart, rfl, rfl⟩
  · intro amd access member cb word reads here
    obtain ⟨part, isPart, rfl⟩ := reads_iff.mp reads
    rw [fit.bindingCBuf_eq member isPart, cbufWord_binding] at here
    have bound := fit.scalar_lt amd access member
    have place := part_le isPart
    rw [← Except.ok.inj here, show bindingStride isAmd = 8 from if_pos amd]
    cases length : access.isLength <;>
      simp only [length, if_true, Bool.false_eq_true, if_false] at bound place ⊢ <;> omega
  · intro a isA b isB cb cb' word reads reads' here here'
    obtain ⟨part, isPart, rfl⟩ := reads_iff.mp reads
    obtain ⟨part', isPart', rfl⟩ := reads_iff.mp reads'
    rw [fit.bindingCBuf_eq isA isPart, cbufWord_binding] at here
    rw [fit.bindingCBuf_eq isB isPart', cbufWord_binding] at here'
    have same := Prod.mk.inj (Except.ok.inj (here.trans here'.symm))
    have kind := fit.sameKind isA isB isPart isPart' same.2
    have group : a.resource.group = b.resource.group := by
      cases isAmd with
      | false => exact same.1
      | true => exact fit.one_group rfl a isA b isB kind.1 kind.2
    refine ⟨?_, kind.1⟩
    exact congrArg₂ ResourceBinding.mk group kind.2

/-- Where an access is read, with nothing cut. -/
theorem KeptApart.bindingCBuf_eq (kept : KeptApart isAmd accesses) {access : ResourceAccess}
    (member : access ∈ accesses) {part : Nat} (isPart : part ∈ access.parts) :
    bindingCBuf isAmd access.resource part =
      { buf := .binding access.resource.group
        offset := access.resource.binding * bindingStride isAmd + part } := by
  have here := kept.whole access member _ (reads_iff.mpr ⟨part, isPart, rfl⟩)
  rcases here with ⟨part', isPart', buf, offset⟩
  have place := part_le isPart
  have place' := part_le isPart'
  -- bindings are eight bytes apart at least, so the part survives the cut
  have same : part' = part := by
    simp only [bindingCBuf, bindingStride] at offset
    cases length : access.isLength <;>
      simp only [length, if_true, Bool.false_eq_true, if_false] at place place'
    · cases isAmd <;> simp only [if_true, Bool.false_eq_true, if_false] at offset <;> omega
    · omega
  rw [same] at offset
  exact congrArg₂ CBufRef.mk buf offset

theorem KeptApart.same (kept : KeptApart isAmd accesses) {a b : ResourceAccess}
    (isA : a ∈ accesses) (isB : b ∈ accesses) {part part' : Nat} (isPart : part ∈ a.parts)
    (isPart' : part' ∈ b.parts) (group : isAmd ∨ a.resource.group = b.resource.group)
    (offset : (a.resource.binding * bindingStride isAmd + part) / 4 =
      (b.resource.binding * bindingStride isAmd + part') / 4) :
    a.resource = b.resource ∧ a.isLength = b.isLength := by
  have here := kept.bindingCBuf_eq isA isPart
  have here' := kept.bindingCBuf_eq isB isPart'
  refine kept.apart a isA b isB _ _ _ (reads_iff.mpr ⟨part, isPart, here⟩)
    (reads_iff.mpr ⟨part', isPart', here'⟩) (cbufWord_binding isAmd _ _) ?_
  rw [cbufWord_binding, offset]
  cases isAmd with
  | false => rw [if_neg Bool.false_ne_true, if_neg Bool.false_ne_true,
      group.resolve_left Bool.false_ne_true]
  | true => rfl

/-- The first part of an access. -/
theorem part_mem (access : ResourceAccess) :
    (if access.isLength then 8 else 0) ∈ access.parts := by
  cases access <;> simp [ResourceAccess.isLength, ResourceAccess.parts]

theorem KeptApart.fit (kept : KeptApart isAmd accesses) : BindingsFit isAmd accesses where
  group_lt := by
    intro access member
    have here := congrArg CBufRef.buf (kept.bindingCBuf_eq member (part_mem access))
    have cut : access.resource.group % 2 ^ 8 = access.resource.group := CBuf.binding.inj here
    rw [← cut]
    exact Nat.mod_lt _ (by decide)
  offset_lt := by
    intro access member
    have here := congrArg CBufRef.offset (kept.bindingCBuf_eq member (part_mem access))
    rw [← show _ = access.resource.binding * bindingStride isAmd +
      (if access.isLength then 8 else 0) from here]
    exact Nat.mod_lt _ (by decide)
  scalar_lt := by
    intro amd access member
    have last : (if access.isLength then 8 else 4) ∈ access.parts := by
      cases access <;> simp [ResourceAccess.isLength, ResourceAccess.parts]
    have here := kept.bindingCBuf_eq member last
    have bound := kept.scalar amd access member _ _ (reads_iff.mpr ⟨_, last, here⟩)
      (cbufWord_binding isAmd _ _)
    rw [show bindingStride isAmd = 8 from if_pos amd] at bound
    cases length : access.isLength <;>
      simp only [length, if_true, Bool.false_eq_true, if_false] at bound ⊢ <;> omega
  one_group := by
    intro amd a isA b isB kind binding
    have apart := kept.same isA isB (part_mem a) (part_mem b) (.inl amd) (by rw [kind, binding])
    exact congrArg ResourceBinding.group apart.1
  no_next := by
    intro amd a isA b isB length address next
    have partA := part_mem a
    have partB := part_mem b
    rw [if_pos length] at partA
    rw [address, if_neg Bool.false_ne_true] at partB
    have apart := kept.same isA isB partA partB (.inl amd) (by
      rw [next, bindingStride, if_pos amd]
      omega)
    rw [length, address] at apart
    exact Bool.noConfusion apart.2

end

end CoralReef.NagaTranslate
