import Mathlib.Data.Fintype.Order

/-! Nodes that are linked to at most one other node each. Without a cycle the links of finitely
many nodes are a forest. -/
namespace HiveGo.LinkForest

variable {E : Type} {link : E → Option E}

/-- The node is linked to the target. -/
def Linked (link : E → Option E) (node target : E) : Prop := link node = some target

/-- Following the links of the node leads to the target. -/
def Leads (link : E → Option E) : E → E → Prop := Relation.ReflTransGen (Linked link)

def Acyclic (link : E → Option E) : Prop := ∀ node, ¬ Relation.TransGen (Linked link) node node

theorem acyclic_of_rank (rank : E → Nat)
    (rises : ∀ node target, Linked link node target → rank node < rank target) : Acyclic link := by
  have above {node target : E} (path : Relation.TransGen (Linked link) node target) :
      rank node < rank target := by
    induction path with
    | single last => exact rises _ _ last
    | tail _ last ih => exact ih.trans (rises _ _ last)
  exact fun node cycle => (above cycle).false

/-- An induction over a forest goes from the nodes that are linked to a node to the node. -/
theorem Acyclic.wellFounded [Finite E] (acyclic : Acyclic link) : WellFounded (Linked link) := by
  have irrefl : Std.Irrefl (Relation.TransGen (Linked link)) := ⟨acyclic⟩
  exact Subrelation.wf Relation.TransGen.single (Finite.wellFounded_of_trans_of_irrefl _)

theorem leads_iff : Leads link node target ↔
      node = target ∨ ∃ child, Linked link child target ∧ Leads link node child := by
  constructor
  · intro leads
    rcases Relation.ReflTransGen.cases_tail leads with same | ⟨child, pre, last⟩
    · exact .inl same.symm
    · exact .inr ⟨child, last, pre⟩
  · rintro (rfl | ⟨child, last, pre⟩)
    · exact .refl
    · exact .tail pre last

/-- A node does not lead to the nodes that are linked to it. -/
theorem Acyclic.not_leads (acyclic : Acyclic link) (linked : Linked link child node) :
    ¬ Leads link node child := fun leads =>
  acyclic child (.head' linked leads)

/-- The nodes that are linked to one node are reached from different nodes. -/
theorem Acyclic.child_unique (acyclic : Acyclic link) (left : Linked link first target)
    (right : Linked link second target) (toFirst : Leads link start first)
    (toSecond : Leads link start second) : first = second := by
  have unique : Relator.RightUnique (Linked link) := by
    intro node a b toA toB
    exact Option.some.inj (toA.symm.trans toB)
  have below : ∀ {a b : E}, Linked link a target → Linked link b target → Leads link a b → a = b := by
    intro a b fromA fromB leads
    rcases Relation.ReflTransGen.cases_head leads with same | ⟨next, step, rest⟩
    · exact same
    · cases unique fromA step
      exact absurd rest (acyclic.not_leads fromB)
  rcases Relation.ReflTransGen.total_of_right_unique unique toFirst toSecond with forth | back
  · exact below left right forth
  · exact (below right left back).symm

end HiveGo.LinkForest
