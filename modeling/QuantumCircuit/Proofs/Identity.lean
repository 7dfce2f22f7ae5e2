import QuantumCircuit.Proofs.Nodes

/-! The normal form that sweeping up identities leads to. At every depth no identity is left
and every compound has at least two children. A child that takes the place of its compound
may itself be a compound, but by then it has been swept. -/
namespace QuantumCircuit
namespace Operation

/-- Neither an identity nor a compound that could be done without. -/
structure Tidy (op : Operation) : Prop where
  isIdentity : op.isIdentity = false
  children : ∀ children, op = .compound children → 2 ≤ children.length

theorem tidy_of_not_compound {op : Operation} (hid : op.isIdentity = false)
    (hcompound : op.isCompound = false) : op.Tidy := by
  refine ⟨hid, ?_⟩
  rintro children rfl
  cases hcompound

theorem tidy_compound {children : List Operation} (h : 2 ≤ children.length) :
    (Operation.compound children).Tidy := by
  refine ⟨rfl, ?_⟩
  rintro _ ⟨⟩
  exact h

/-! ## What is left is tidy -/

/-- Tidy operations stay tidy when they are grouped. -/
theorem tidy_of_mem_nodes_ofChildren {ops : List Operation} (hne : ops ≠ [])
    (h : ∀ node ∈ nodesOfAll ops, node.Tidy) {node : Operation}
    (hnode : node ∈ (ofChildren ops).nodes) : node.Tidy := by
  rcases ops with _ | ⟨op, _ | ⟨next, rest⟩⟩
  · exact absurd rfl hne
  · exact h node (mem_nodesOfAll.2 ⟨op, List.mem_cons_self, hnode⟩)
  · rcases List.mem_cons.1 hnode with rfl | hnode
    · exact tidy_compound (Nat.le_add_left 2 rest.length)
    · exact h node hnode

theorem tidy_of_mem_nodes_strip?_leaf {op kept node : Operation} (hleaf : op.isCompound = false)
    (hkept : op.strip? = some kept) (hnode : node ∈ kept.nodes) : node.Tidy := by
  rw [strip?_of_not_compound hleaf] at hkept
  split at hkept
  · cases hkept
  · next hid =>
    cases hkept
    rw [nodes_eq_self hleaf, List.mem_singleton] at hnode
    rw [hnode]
    exact tidy_of_not_compound (Bool.eq_false_iff.2 hid) hleaf

theorem tidy_of_mem_nodes_strip? {op kept node : Operation} (hkept : op.strip? = some kept)
    (hnode : node ∈ kept.nodes) : node.Tidy := by
  induction op using inductionOn generalizing kept node with
  | gate g => exact tidy_of_mem_nodes_strip?_leaf rfl hkept hnode
  | effect e => exact tidy_of_mem_nodes_strip?_leaf rfl hkept hnode
  | conditional cond body _ => exact tidy_of_mem_nodes_strip?_leaf rfl hkept hnode
  | compound children ih =>
    have hall : ∀ node ∈ nodesOfAll (stripAll children), node.Tidy := by
      intro node hnode
      obtain ⟨kept, hmem, hin⟩ := mem_nodesOfAll.1 hnode
      obtain ⟨child, hchild, hstrip⟩ := mem_stripAll.1 hmem
      exact ih child hchild hstrip hin
    rw [strip?] at hkept
    split at hkept
    · cases hkept
    · next first rest heq =>
      cases hkept
      rw [heq] at hall
      exact tidy_of_mem_nodes_ofChildren (List.cons_ne_nil first rest) hall hnode

/-- Whatever is inside what is left is tidy. -/
theorem tidy_of_mem_nodesOfAll_stripAll {ops : List Operation} {node : Operation}
    (hnode : node ∈ nodesOfAll (stripAll ops)) : node.Tidy := by
  obtain ⟨kept, hmem, hin⟩ := mem_nodesOfAll.1 hnode
  obtain ⟨op, -, hstrip⟩ := mem_stripAll.1 hmem
  exact tidy_of_mem_nodes_strip? hstrip hin

/-! ## What is tidy is left -/

theorem stripAll_of {ops : List Operation} (h : ∀ op ∈ ops, op.strip? = some op) :
    stripAll ops = ops := by
  induction ops with
  | nil => rfl
  | cons op rest ih =>
    rw [stripAll, h op List.mem_cons_self, ih fun o ho => h o (List.mem_cons_of_mem _ ho)]

theorem strip?_of_tidy {op : Operation} (h : ∀ node ∈ op.nodes, node.Tidy) :
    op.strip? = some op := by
  have hself := h op (mem_nodes_self op)
  induction op using inductionOn with
  | gate g => rw [strip?_of_not_compound rfl, hself.isIdentity]; rfl
  | effect e => rw [strip?_of_not_compound rfl, hself.isIdentity]; rfl
  | conditional cond body _ => rw [strip?_of_not_compound rfl, hself.isIdentity]; rfl
  | compound children ih =>
    have hsame : stripAll children = children := by
      refine stripAll_of fun child hchild => ?_
      have hin : ∀ node ∈ child.nodes, node.Tidy := fun node hnode =>
        h node (List.mem_cons_of_mem _ (mem_nodesOfAll.2 ⟨child, hchild, hnode⟩))
      exact ih child hchild hin (hin child (mem_nodes_self child))
    have hlen := hself.children children rfl
    rw [strip?, hsame]
    rcases children with _ | ⟨first, _ | ⟨second, rest⟩⟩
    · cases hlen
    · exact absurd hlen (Nat.not_succ_le_self 1)
    · rfl

/-- Sweeping up identities leaves exactly the tidy lists as they are. -/
theorem stripAll_eq_self_iff {ops : List Operation} :
    stripAll ops = ops ↔ ∀ node ∈ nodesOfAll ops, node.Tidy := by
  constructor
  · intro h node hnode
    rw [← h] at hnode
    exact tidy_of_mem_nodesOfAll_stripAll hnode
  · intro h
    exact stripAll_of fun op hop => strip?_of_tidy fun node hnode =>
      h node (mem_nodesOfAll.2 ⟨op, hop, hnode⟩)

end Operation

namespace Circuit
open Operation

/-- Without its identities a circuit is tidy at every depth, has the leaves that are not
identities in the order they had, and does not change when it is swept once more. -/
theorem removeIdentities_normalForm (c : Circuit) :
    (∀ op ∈ nodesOfAll c.removeIdentities.ops, op.isIdentity = false ∧
        ∀ children, op = .compound children → 2 ≤ children.length) ∧
      c.removeIdentities.flatten.ops = c.flatten.ops.filter (!·.isIdentity) ∧
      c.removeIdentities.removeIdentities = c.removeIdentities := by
  refine ⟨?_, leavesOfAll_stripAll c.ops, ?_⟩
  · intro op hop
    have htidy := tidy_of_mem_nodesOfAll_stripAll hop
    exact ⟨htidy.isIdentity, htidy.children⟩
  · have hsame : stripAll (stripAll c.ops) = stripAll c.ops :=
      stripAll_eq_self_iff.2 fun _ => tidy_of_mem_nodesOfAll_stripAll
    rw [removeIdentities, removeIdentities, hsame]

/-- Identities at several depths: one under a condition, one alone in its compound, and one
beside a compound that is to take its parent's place. -/
def leftovers : Circuit :=
  { Circuit.withSize "leftovers" 2 1 with
    ops := [.compound [.gate (.ofKind .i [⟨0⟩]),
        .compound [.compound [.gate (.cnot ⟨0⟩ ⟨1⟩), .gate (.ofKind .h [⟨1⟩])],
          .effect ⟨.i, [⟨0⟩], []⟩]],
      .conditional ⟨.single ⟨0⟩, 1⟩ (.gate (.ofKind .i [⟨1⟩])),
      .compound [.compound [.gate (.ofKind .i [⟨1⟩])]], .gate (.ofKind .x [⟨1⟩])] }

theorem removeIdentities_normalForm_leftovers :
    leftovers.removeIdentities.ops =
        [.compound [.gate (.cnot ⟨0⟩ ⟨1⟩), .gate (.ofKind .h [⟨1⟩])], .gate (.ofKind .x [⟨1⟩])] ∧
      (∀ op ∈ nodesOfAll leftovers.removeIdentities.ops, op.isIdentity = false ∧
        ∀ children, op = .compound children → 2 ≤ children.length) ∧
      Operation.gate (.cnot ⟨0⟩ ⟨1⟩) ∈ nodesOfAll leftovers.removeIdentities.ops ∧
      leftovers.removeIdentities.removeIdentities = leftovers.removeIdentities := by
  obtain ⟨hnodes, -, hagain⟩ := removeIdentities_normalForm leftovers
  exact ⟨by decide, hnodes, by decide, hagain⟩

end Circuit
end QuantumCircuit
