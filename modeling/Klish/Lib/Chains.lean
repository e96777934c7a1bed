import Mathlib.Data.Set.Finite.Lattice
import Mathlib.Logic.Relation
import Mathlib.Order.WellFounded

/-!
# Chains in a finite set

From an element whose successors are finite in number, all chains end exactly if none of them comes
to a cycle.
-/

namespace Klish.Chains

open Relation

variable {α : Type*} {r : α → α → Prop} {a b : α}

/-- A chain of the relation that begins with the element comes to a cycle. -/
def Cyclic (r : α → α → Prop) (a : α) : Prop := ∃ b, ReflTransGen r a b ∧ TransGen r b b

/-- What can be reached by finite steps whose chains all end is finite. -/
theorem finite_reach {next : α → List α} (h : Acc (fun b a => b ∈ next a) a) :
    {b | ReflTransGen (fun a b => b ∈ next a) a b}.Finite := by
  induction h with
  | intro a _ ih =>
    have hsub : {b | ReflTransGen (fun a b => b ∈ next a) a b} ⊆
        {a} ∪ ⋃ c ∈ {c | c ∈ next a}, {b | ReflTransGen (fun a b => b ∈ next a) c b} := by
      intro b hb
      rcases hb.cases_head with rfl | ⟨c, hc, hcb⟩
      · exact .inl rfl
      · exact .inr (Set.mem_biUnion hc hcb)
    exact ((Set.finite_singleton a).union
      ((List.finite_toSet (next a)).biUnion fun c hc => ih c hc)).subset hsub

theorem acc_of_not_cyclic (hfin : {b | TransGen r a b}.Finite) (h : ¬ Cyclic r a) :
    Acc (fun c b => r b c) a := by
  have hreach : {b | ReflTransGen r a b}.Finite := by
    apply ((Set.finite_singleton a).union hfin).subset
    intro b hb
    exact (reflTransGen_iff_eq_or_transGen.mp hb).imp id id
  have : Finite {b // ReflTransGen r a b} := hreach
  have : IsTrans {b // ReflTransGen r a b} fun c b => TransGen r b.1 c.1 :=
    ⟨fun _ _ _ hcb hdc => hdc.trans hcb⟩
  have : Std.Irrefl fun (c b : {b // ReflTransGen r a b}) => TransGen r b.1 c.1 :=
    ⟨fun b hb => h ⟨b.1, b.2, hb⟩⟩
  have hwf : WellFounded fun (c b : {b // ReflTransGen r a b}) => TransGen r b.1 c.1 :=
    Finite.wellFounded_of_trans_of_irrefl _
  have hall : ∀ b : {b // ReflTransGen r a b}, Acc (fun c b => r b c) b.1 := by
    intro b
    induction b using hwf.induction with
    | _ b ih =>
      constructor
      intro c hc
      exact ih ⟨c, b.2.tail hc⟩ (.single hc)
  exact hall ⟨a, .refl⟩

theorem not_cyclic_of_acc (h : Acc (fun c b => r b c) a) : ¬ Cyclic r a := by
  induction h with
  | intro a _ ih =>
    rintro ⟨b, hab, hbb⟩
    rcases hab.cases_head with rfl | ⟨c, hac, hcb⟩
    · obtain ⟨c, hac, hca⟩ := TransGen.head'_iff.mp hbb
      exact ih c hac ⟨a, hca, hbb⟩
    · exact ih c hac ⟨b, hcb, hbb⟩

/-- All chains end exactly if there is no cycle. -/
theorem acc_iff_not_cyclic (hfin : {b | TransGen r a b}.Finite) :
    Acc (fun c b => r b c) a ↔ ¬ Cyclic r a :=
  ⟨not_cyclic_of_acc, acc_of_not_cyclic hfin⟩

end Klish.Chains
