import CoralReef.Codegen.Ir.SsaRef

/-!
# Packing and reading back

Packed values lie below the words that mark a length, so every array is its values followed by
slots that only their number determines.
-/

open List

namespace CoralReef

namespace PackedSSAValue

/-- A value that `SSAValue::new` made. -/
def IsValue (ssa : PackedSSAValue) : Prop := ∃ file idx, new file idx = .ok ssa

/-- The register file lies above the index. -/
theorem packed_eq (file : RegFile) {idx : Nat} (small : idx < 2 ^ 29) :
    idx ||| file.toNat <<< 29 = file.toNat * 2 ^ 29 + idx := by
  rw [Nat.or_comm, ← Nat.shiftLeft_add_eq_or_of_lt small, Nat.shiftLeft_eq]

theorem new_eq (file : RegFile) {idx : Nat} (positive : 0 < idx) (small : idx < 2 ^ 29 - 32) :
    ∃ ssa, new file idx = .ok ssa ∧ ssa.packed.get = file.toNat * 2 ^ 29 + idx := by
  have code : file.toNat ≤ 6 := by cases file <;> simp [RegFile.toNat]
  have word : idx ||| file.toNat <<< 29 = file.toNat * 2 ^ 29 + idx :=
    packed_eq file (by omega)
  have bounds : 0 < file.toNat * 2 ^ 29 + idx ∧ file.toNat * 2 ^ 29 + idx < 2 ^ 32 := by omega
  refine ⟨⟨⟨_, bounds⟩⟩, ?_, rfl⟩
  unfold new
  rw [decide_eq_true (show 0 < idx ∧ idx < 2 ^ 29 - largeSize from ⟨positive, small⟩),
    decide_eq_true (show file.toNat < 8 by omega), word, NonZeroU32.tryFrom, dif_pos bounds]
  rfl

/-- A packed value gives back its index and its register file. -/
theorem new_ok {file : RegFile} {idx : Nat} {ssa : PackedSSAValue} (made : new file idx = .ok ssa) :
    ssa.idx = idx ∧ ssa.file = .ok file ∧ ssa.packed.get < 2 ^ 32 - 32 := by
  have inside : 0 < idx ∧ idx < 2 ^ 29 - 32 := by
    by_contra outside
    unfold new at made
    rw [decide_eq_false (show ¬(0 < idx ∧ idx < 2 ^ 29 - largeSize) from outside)] at made
    cases made
  obtain ⟨same, made', word⟩ := new_eq file inside.1 inside.2
  rw [made] at made'
  cases made'
  refine ⟨?_, ?_, ?_⟩
  · unfold PackedSSAValue.idx
    rw [word, show 0x1fffffff = 2 ^ 29 - 1 from rfl, Nat.and_two_pow_sub_one_eq_mod]
    omega
  · unfold PackedSSAValue.file
    have code : (file.toNat * 2 ^ 29 + idx) / 2 ^ 29 = file.toNat := by omega
    rw [word, Nat.shiftRight_eq_div_pow, code]
    cases file <;> rfl
  · have code : file.toNat ≤ 6 := by cases file <;> simp [RegFile.toNat]
    omega

/-- No value looks like a length. -/
theorem IsValue.not_length {ssa : PackedSSAValue} (isValue : ssa.IsValue) {len : Nat}
    (fits : len ≤ 32) : ssa.packed.get ≠ wrappingNeg len := by
  obtain ⟨file, idx, made⟩ := isValue
  have below := (new_ok made).2.2
  have positive := ssa.packed.bounds.1
  unfold wrappingNeg
  omega

end PackedSSAValue

namespace SSAValueArray

open PackedSSAValue

variable {size : Nat}

/-- The slots behind `len` values. -/
def marks (size len : Nat) : List PackedSSAValue :=
  if bounds : 0 < 2 ^ 32 - len ∧ 2 ^ 32 - len < 2 ^ 32 then
    (List.replicate (size - len) ⟨NonZeroU32.max⟩).set (size - 1 - len) ⟨⟨2 ^ 32 - len, bounds⟩⟩
  else []

theorem eq_of_v {r r' : SSAValueArray size} (same : r.v = r'.v) : r = r' := by
  cases r
  cases r'
  cases same
  rfl

/-- An array is its values and the slots behind them. -/
theorem new_v {comps : List PackedSSAValue} (nonempty : comps ≠ []) (fits : comps.length ≤ size)
    (word : size < 2 ^ 32) :
    ∃ r : SSAValueArray size, new comps = .ok r ∧ r.v = comps ++ marks size comps.length := by
  have positive : 0 < comps.length := length_pos_iff.mpr nonempty
  have bounds : 0 < 2 ^ 32 - comps.length ∧ 2 ^ 32 - comps.length < 2 ^ 32 := by omega
  unfold new marks
  rw [dif_pos ⟨nonempty, fits⟩, dif_pos bounds]
  by_cases short : comps.length < size
  · have neg : wrappingNeg (comps.length % 2 ^ 32) = 2 ^ 32 - comps.length := by
      unfold wrappingNeg
      omega
    have packed : NonZeroU32.tryFrom (wrappingNeg (comps.length % 2 ^ 32)) =
        some ⟨2 ^ 32 - comps.length, bounds⟩ := by
      rw [NonZeroU32.tryFrom, neg, dif_pos bounds]
    dsimp only
    rw [if_pos short, packed]
    refine ⟨_, rfl, ?_⟩
    exact set_append_right _ _ (by omega)
  · have none : size - comps.length = 0 := by omega
    dsimp only
    rw [if_neg short]
    refine ⟨_, rfl, ?_⟩
    simp [none]

theorem marks_last {len : Nat} (positive : 0 < len) (short : len < size) (word : size < 2 ^ 32) :
    ∃ last : PackedSSAValue, (marks size len)[size - 1 - len]? = some last ∧
      last.packed.get = 2 ^ 32 - len := by
  have bounds : 0 < 2 ^ 32 - len ∧ 2 ^ 32 - len < 2 ^ 32 := by omega
  unfold marks
  rw [dif_pos bounds]
  refine ⟨⟨⟨2 ^ 32 - len, bounds⟩⟩, ?_, rfl⟩
  rw [List.getElem?_set_self (by rw [length_replicate]; omega)]

/-- The array gives back its values. -/
theorem deref_of_v {r : SSAValueArray size} {comps : List PackedSSAValue}
    (values : ∀ ssa ∈ comps, ssa.IsValue) (nonempty : comps ≠ []) (fits : comps.length ≤ size)
    (few : size ≤ 32) (slots : r.v = comps ++ marks size comps.length) :
    r.comps = comps.length ∧ r.deref = comps := by
  have positive : 0 < comps.length := length_pos_iff.mpr nonempty
  have count : r.comps = comps.length := by
    unfold SSAValueArray.comps
    rw [slots]
    by_cases short : comps.length < size
    · obtain ⟨last, isLast, marked⟩ := marks_last positive short (by omega)
      rw [List.getElem?_append_right (by omega), isLast]
      dsimp only
      rw [marked, if_pos (by omega)]
      unfold wrappingNeg
      omega
    · have whole : comps.length = size := by omega
      have inside : size - 1 < comps.length := by omega
      rw [List.getElem?_append_left inside, List.getElem?_eq_getElem inside]
      dsimp only
      obtain ⟨file, idx, made⟩ := values _ (getElem_mem inside)
      have below := (new_ok made).2.2
      rw [if_neg (by omega)]
      exact whole.symm
  refine ⟨count, ?_⟩
  unfold deref
  rw [count, slots, take_left]

end SSAValueArray

namespace PackedSSARef

open PackedSSAValue

variable {comps : List PackedSSAValue}

/-- A reference that holds `comps`. -/
inductive Holds : PackedSSARef → List PackedSSAValue → Prop where
  | small {x : SSAValueArray smallSize} {comps : List PackedSSAValue}
      (fits : comps.length ≤ smallSize)
      (slots : x.v = comps ++ SSAValueArray.marks smallSize comps.length) : Holds (.small x) comps
  | large {x : SSAValueArray largeSize} {comps : List PackedSSAValue}
      (long : smallSize < comps.length) (fits : comps.length ≤ largeSize)
      (slots : x.v = comps ++ SSAValueArray.marks largeSize comps.length) : Holds (.large x) comps

theorem new_holds (nonempty : comps ≠ []) (fits : comps.length ≤ largeSize) :
    ∃ ref, new comps = .ok ref ∧ Holds ref comps := by
  unfold new
  by_cases long : comps.length > smallSize
  · obtain ⟨x, made, slots⟩ := SSAValueArray.new_v nonempty fits (by decide)
    rw [if_pos long, made]
    exact ⟨.large x, rfl, .large long fits slots⟩
  · obtain ⟨x, made, slots⟩ := SSAValueArray.new_v nonempty (Nat.le_of_not_lt long) (by decide)
    rw [if_neg long, made]
    exact ⟨.small x, rfl, .small (Nat.le_of_not_lt long) slots⟩

/-- What a reference holds is read back from it. -/
theorem Holds.deref {ref : PackedSSARef} (holds : Holds ref comps)
    (values : ∀ ssa ∈ comps, ssa.IsValue) (nonempty : comps ≠ []) :
    ref.comps = comps.length ∧ ref.deref = comps := by
  cases holds with
  | small fits slots
  | large long fits slots => exact SSAValueArray.deref_of_v values nonempty fits (by decide) slots

/-- Two references that hold the same values are the same. -/
theorem Holds.unique {ref ref' : PackedSSARef} (holds : Holds ref comps)
    (holds' : Holds ref' comps) : ref = ref' := by
  cases holds with
  | small fits slots =>
    cases holds' with
    | small _ slots' => rw [SSAValueArray.eq_of_v (slots.trans slots'.symm)]
    | large long => omega
  | large long _ slots =>
    cases holds' with
    | small fits => omega
    | large _ _ slots' => rw [SSAValueArray.eq_of_v (slots.trans slots'.symm)]

/-- A reference of the compiler: packed values, some of which may have been written over. -/
inductive Built : PackedSSARef → Prop where
  | new {comps : List PackedSSAValue} {ref : PackedSSARef}
      (values : ∀ ssa ∈ comps, ssa.IsValue) (made : PackedSSARef.new comps = .ok ref) : Built ref
  | set {ref ref' : PackedSSARef} {i : Nat} {ssa : PackedSSAValue} (built : Built ref)
      (isValue : ssa.IsValue) (written : ref.set i ssa = .ok ref') : Built ref'

theorem fits_of_new {ref : PackedSSARef} (made : new comps = .ok ref) :
    comps ≠ [] ∧ comps.length ≤ largeSize := by
  have array : ∀ {size : Nat} {x : SSAValueArray size}, SSAValueArray.new comps = .ok x →
      comps ≠ [] ∧ comps.length ≤ size := by
    intro size x made
    by_contra outside
    rw [SSAValueArray.new, dif_neg outside] at made
    cases made
  unfold new at made
  split at made
  · obtain ⟨x, array', -⟩ := bind_eq_ok.mp made
    exact array array'
  · obtain ⟨x, array', -⟩ := bind_eq_ok.mp made
    obtain ⟨nonempty, fits⟩ := array array'
    exact ⟨nonempty, fits.trans (by decide)⟩

/-- A write replaces one of the values. -/
theorem Holds.set {ref ref' : PackedSSARef} (holds : Holds ref comps)
    (values : ∀ ssa ∈ comps, ssa.IsValue) (nonempty : comps ≠ []) {i : Nat} {ssa : PackedSSAValue}
    (written : ref.set i ssa = .ok ref') : Holds ref' (comps.set i ssa) := by
  have count := (holds.deref values nonempty).1
  have array : ∀ {size : Nat} {x x' : SSAValueArray size}, x.comps = comps.length →
      x.v = comps ++ SSAValueArray.marks size comps.length → x.set i ssa = .ok x' →
        x'.v = comps.set i ssa ++ SSAValueArray.marks size (comps.set i ssa).length := by
    intro size x x' count slots written
    unfold SSAValueArray.set at written
    split at written
    next inside =>
      cases written
      show x.v.set i ssa = _
      rw [slots, length_set, set_append_left _ _ (by omega)]
    next => cases written
  cases holds with
  | small fits slots =>
    obtain ⟨x', stored, made⟩ := bind_eq_ok.mp written
    cases made
    exact .small (by rwa [length_set]) (array count slots stored)
  | large long fits slots =>
    obtain ⟨x', stored, made⟩ := bind_eq_ok.mp written
    cases made
    exact .large (by rwa [length_set]) (by rwa [length_set]) (array count slots stored)

theorem Built.holds {ref : PackedSSARef} (built : Built ref) :
    ∃ comps, (∀ ssa ∈ comps, ssa.IsValue) ∧ comps ≠ [] ∧ Holds ref comps := by
  induction built with
  | @new comps ref values made =>
    obtain ⟨nonempty, fits⟩ := fits_of_new made
    obtain ⟨ref', made', holds⟩ := new_holds nonempty fits
    rw [made] at made'
    cases made'
    exact ⟨comps, values, nonempty, holds⟩
  | @set ref ref' i ssa _ isValue written ih =>
    obtain ⟨comps, values, nonempty, holds⟩ := ih
    refine ⟨comps.set i ssa, ?_, ?_, holds.set values nonempty written⟩
    · intro other member
      rcases mem_or_eq_of_mem_set member with old | rfl
      · exact values other old
      · exact isValue
    · intro none
      have length := congrArg List.length none
      rw [length_set, length_nil, length_eq_zero_iff] at length
      exact nonempty length

/-- References are equal exactly when they hold the same values. -/
theorem Built.eq_iff {ref ref' : PackedSSARef} (built : Built ref) (built' : Built ref') :
    ref = ref' ↔ ref.deref = ref'.deref := by
  constructor
  · rintro rfl
    rfl
  · intro same
    obtain ⟨comps, values, nonempty, holds⟩ := built.holds
    obtain ⟨comps', values', nonempty', holds'⟩ := built'.holds
    rw [(holds.deref values nonempty).2, (holds'.deref values' nonempty').2] at same
    subst same
    exact holds.unique holds'

/-- Packing the values of a reference one by one. -/
def pack (values : List SSAValue) : Except Fault (List PackedSSAValue) :=
  values.mapM fun ssa => PackedSSAValue.new ssa.file ssa.idx

/-- Reading the register file and the index of every value. -/
def unpack (packed : List PackedSSAValue) : Except Fault (List SSAValue) :=
  packed.mapM fun ssa => do
    let file ← ssa.file
    return { file, idx := ssa.idx }

/-- A value that the packed form has room for. -/
def Legal (ssa : SSAValue) : Prop := 0 < ssa.idx ∧ ssa.idx < 2 ^ 29 - largeSize

theorem pack_ok : ∀ {values : List SSAValue}, (∀ ssa ∈ values, Legal ssa) →
    ∃ packed, pack values = .ok packed ∧ packed.length = values.length ∧
      (∀ ssa ∈ packed, ssa.IsValue) ∧ unpack packed = .ok values := by
  intro values
  induction values with
  | nil => exact fun _ => ⟨[], rfl, rfl, by simp, rfl⟩
  | cons ssa values ih =>
    intro legal
    obtain ⟨first, made, -⟩ := PackedSSAValue.new_eq ssa.file
      (legal ssa mem_cons_self).1 (legal ssa mem_cons_self).2
    obtain ⟨packed, rest, length, isValue, back⟩ :=
      ih fun other member => legal other (mem_cons_of_mem ssa member)
    obtain ⟨sameIdx, sameFile, -⟩ := PackedSSAValue.new_ok made
    refine ⟨first :: packed, ?_, by rw [length_cons, length, length_cons], ?_, ?_⟩
    · unfold pack at rest ⊢
      rw [mapM_cons, made, ok_bind, rest]
      rfl
    · intro other member
      rcases mem_cons.mp member with rfl | later
      · exact ⟨_, _, made⟩
      · exact isValue other later
    · unfold unpack at back ⊢
      rw [mapM_cons, sameFile, back, sameIdx]
      rfl

/-- Values with the same file and index are the same word. -/
theorem unpack_inj : ∀ {packed packed' : List PackedSSAValue} {values : List SSAValue},
    (∀ ssa ∈ packed, ssa.IsValue) → (∀ ssa ∈ packed', ssa.IsValue) → unpack packed = .ok values →
      unpack packed' = .ok values → packed = packed' := by
  have read : ∀ {first : PackedSSAValue} {packed : List PackedSSAValue} {values : List SSAValue},
      unpack (first :: packed) = .ok values → ∃ file others,
        values = ⟨file, first.idx⟩ :: others ∧ first.file = .ok file ∧
          unpack packed = .ok others := by
    intro first packed values back
    unfold unpack at back
    rw [mapM_cons] at back
    obtain ⟨ssa, read, rest⟩ := bind_eq_ok.mp back
    obtain ⟨others, back', made⟩ := bind_eq_ok.mp rest
    cases made
    obtain ⟨file, sameFile, made⟩ := bind_eq_ok.mp read
    cases made
    exact ⟨file, others, rfl, sameFile, back'⟩
  intro packed
  induction packed with
  | nil =>
    intro packed' values _ _ back back'
    cases back
    cases packed' with
    | nil => rfl
    | cons first packed' =>
      obtain ⟨_, _, impossible, -⟩ := read back'
      cases impossible
  | cons first packed ih =>
    intro packed' values isValue isValue' back back'
    obtain ⟨file, others, rfl, sameFile, rest⟩ := read back
    cases packed' with
    | nil => cases back'
    | cons first' packed' =>
      obtain ⟨file', others', same, sameFile', rest'⟩ := read back'
      obtain ⟨head, rfl⟩ := List.cons.inj same
      obtain ⟨rfl, sameIdx⟩ := SSAValue.mk.inj head
      obtain ⟨f, i, made⟩ := isValue first mem_cons_self
      obtain ⟨f', i', made'⟩ := isValue' first' mem_cons_self
      obtain ⟨idx, isFile, -⟩ := PackedSSAValue.new_ok made
      obtain ⟨idx', isFile', -⟩ := PackedSSAValue.new_ok made'
      have files : f = f' := by
        rw [isFile] at sameFile
        rw [isFile'] at sameFile'
        cases sameFile
        cases sameFile'
        rfl
      have indices : i = i' := idx.symm.trans (sameIdx.trans idx')
      subst files indices
      rw [made] at made'
      cases made'
      rw [ih (fun ssa member => isValue ssa (mem_cons_of_mem _ member))
        (fun ssa member => isValue' ssa (mem_cons_of_mem _ member)) rest rest']

/-- The file of a slice is the one that all its values have. -/
theorem fileOf_eq_ok : ∀ {packed : List PackedSSAValue} {values : List SSAValue},
    unpack packed = .ok values → values ≠ [] → ∀ file, PackedSSAValue.fileOf packed = .ok file ↔
      ∀ ssa ∈ values, ssa.file = file := by
  have step : ∀ (found : RegFile) (packed : List PackedSSAValue) (values : List SSAValue),
      unpack packed = .ok values →
        (forM packed (PackedSSAValue.checkFile found) = .ok () ↔
          ∀ ssa ∈ values, ssa.file = found) := by
    intro found packed
    induction packed with
    | nil =>
      intro values back
      cases back
      constructor
      · intro _ ssa member
        cases member
      · exact fun _ => rfl
    | cons first packed ih =>
      intro values back
      unfold unpack at back
      rw [mapM_cons] at back
      obtain ⟨ssa, read, rest⟩ := bind_eq_ok.mp back
      obtain ⟨others, back', made⟩ := bind_eq_ok.mp rest
      cases made
      obtain ⟨file, sameFile, made⟩ := bind_eq_ok.mp read
      cases made
      rw [forM_cons, PackedSSAValue.checkFile, sameFile, ok_bind, forall_mem_cons]
      by_cases same : file = found
      · subst same
        rw [if_neg (by simp)]
        exact (ih others back').trans (by simp)
      · rw [if_pos same]
        simp [same]
  intro packed values back nonempty file
  cases packed with
  | nil =>
    cases back
    exact absurd rfl nonempty
  | cons first packed =>
    unfold unpack at back
    rw [mapM_cons] at back
    obtain ⟨ssa, read, rest⟩ := bind_eq_ok.mp back
    obtain ⟨others, back', made⟩ := bind_eq_ok.mp rest
    cases made
    obtain ⟨found, sameFile, made⟩ := bind_eq_ok.mp read
    cases made
    unfold PackedSSAValue.fileOf
    rw [List.head?_cons, expect_some, ok_bind, sameFile, ok_bind, bind_eq_ok, tail_cons,
      forall_mem_cons]
    constructor
    · rintro ⟨_, checked, result⟩
      cases result
      exact ⟨rfl, (step _ packed others back').mp checked⟩
    · rintro ⟨rfl, same⟩
      exact ⟨(), (step _ packed others back').mpr same, rfl⟩

/-- Every legal list of values packs into a reference that gives it back. No value looks like a
length, and references are equal exactly when they hold the same values, also after writes. -/
theorem roundTrip (values : List SSAValue) (nonempty : values ≠ []) (fits : values.length ≤ 32)
    (legal : ∀ ssa ∈ values, Legal ssa) :
    ∃ packed ref, pack values = .ok packed ∧ PackedSSARef.new packed = .ok ref ∧
      ref.deref = packed ∧ unpack ref.deref = .ok values ∧ ref.comps = values.length ∧
      (∀ file, ref.file = .ok file ↔ ∀ ssa ∈ values, ssa.file = file) ∧
      (∀ ssa ∈ packed, ∀ len ≤ 32, ssa.packed.get ≠ wrappingNeg len) ∧
      Built ref ∧ ∀ ref', Built ref' → (ref = ref' ↔ unpack ref'.deref = .ok values) := by
  obtain ⟨packed, made, length, isValue, back⟩ := pack_ok legal
  have nonempty' : packed ≠ [] := by
    rintro rfl
    exact nonempty (List.length_eq_zero_iff.mp length.symm)
  obtain ⟨ref, made', holds⟩ := new_holds nonempty' (by rw [length]; exact fits)
  obtain ⟨count, same⟩ := holds.deref isValue nonempty'
  refine ⟨packed, ref, made, made', same, by rwa [same], count.trans length, ?_,
    fun ssa member len few => (isValue ssa member).not_length few, .new isValue made', ?_⟩
  · intro file
    unfold PackedSSARef.file
    rw [same]
    exact fileOf_eq_ok back nonempty file
  · intro ref' built
    rw [(Built.new isValue made').eq_iff built, same]
    constructor
    · rintro rfl
      exact back
    · intro back'
      obtain ⟨comps, values', nonempty'', holds'⟩ := built.holds
      rw [(holds'.deref values' nonempty'').2] at back' ⊢
      exact unpack_inj isValue values' back back'

theorem roundTrip_pair :
    ∃ packed ref, pack [⟨.gpr, 7⟩, ⟨.upred, 8⟩] = .ok packed ∧ PackedSSARef.new packed = .ok ref ∧
      ref.deref = packed ∧ unpack ref.deref = .ok [⟨.gpr, 7⟩, ⟨.upred, 8⟩] ∧ ref.comps = 2 ∧
      (∀ file, ref.file = .ok file ↔ ∀ ssa ∈ [⟨.gpr, 7⟩, ⟨.upred, 8⟩], SSAValue.file ssa = file) ∧
      (∀ ssa ∈ packed, ∀ len ≤ 32, ssa.packed.get ≠ wrappingNeg len) ∧
      Built ref ∧ ∀ ref', Built ref' →
        (ref = ref' ↔ unpack ref'.deref = .ok [⟨.gpr, 7⟩, ⟨.upred, 8⟩]) :=
  roundTrip [⟨.gpr, 7⟩, ⟨.upred, 8⟩] (by simp) (by simp) (by
    intro ssa member
    rw [List.mem_cons, List.mem_singleton] at member
    rcases member with rfl | rfl
    · exact ⟨by decide, by decide⟩
    · exact ⟨by decide, by decide⟩)

end PackedSSARef

end CoralReef
