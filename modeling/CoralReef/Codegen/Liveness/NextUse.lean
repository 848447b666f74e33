import CoralReef.Codegen.Ir.SrcDst

/-!
# Next uses

`NextUseBlockLiveness` of `codegen/liveness.rs`. A use in a block is numbered by its instruction,
and the first use after the block by the instructions from the start of the block on.
-/

namespace CoralReef

/-- The uses of a value in ascending order. -/
structure SSAUseDef where
  defined : Bool := false
  uses : List Nat := []
  ascending : uses.Pairwise (· ≤ ·) := by decide

structure NextUseBlockLiveness where
  ssaMap : SSAValue → Option SSAUseDef

namespace NextUseBlockLiveness

/-- `next_use_after_or_at_ip`. The partition point of ascending uses lies before the first use that
is not below `ip`. -/
def nextUseAfterOrAtIp (bl : NextUseBlockLiveness) (val : SSAValue) (ip : Nat) : Option Nat :=
  match bl.ssaMap val with
  | some entry => entry.uses.find? fun use => ¬ use < ip
  | none => none

/-- It is the least use that is not below `ip`. -/
theorem nextUseAfterOrAtIp_least {bl : NextUseBlockLiveness} {val : SSAValue} {ip use : Nat}
    (next : bl.nextUseAfterOrAtIp val ip = some use) :
    ∃ entry, bl.ssaMap val = some entry ∧ use ∈ entry.uses ∧ ip ≤ use ∧
      ∀ other ∈ entry.uses, ip ≤ other → use ≤ other := by
  unfold nextUseAfterOrAtIp at next
  cases known : bl.ssaMap val with
  | none =>
    rw [known] at next
    cases next
  | some entry =>
    rw [known] at next
    obtain ⟨late, before, after, split, early⟩ := List.find?_eq_some_iff_append.mp next
    refine ⟨entry, rfl, ?_, by simpa using late, ?_⟩
    · rw [split]
      simp
    · intro other member notEarly
      have ascending := entry.ascending
      rw [split] at member ascending
      rcases List.mem_append.mp member with inside | inside
      · have := early other inside
        simp at this
        omega
      · rcases List.mem_cons.mp inside with rfl | later
        · exact le_rfl
        · exact (List.pairwise_cons.mp (List.pairwise_append.mp ascending).2.1).1 other later

end NextUseBlockLiveness

end CoralReef
