import ObjcMetadata.Proofs.Support.Session
import ObjcMetadata.Proofs.Type.Traversal
/-!
Support and encodings.

That a node has an encoding says nothing about the parts below it, nor about a declaration that it
names. A type is supported exactly if all nodes below it have encodings and the declarations that
they name are supported (`Graph.not_unsupported_type_iff`). So support gives encodings to all nodes
below a type, and where no node below it names a declaration, encodings are all that support needs
(`isTypeSupported_encodes`).
-/

namespace ObjcMetadata

open Relation Reach

/-! ### Encodings -/

/-- The declaration that a type refers to, if it is an interface, a struct or a union. -/
def TypeNode.declaration? : TypeNode → Option DeclKey
  | .interface name _ => some ⟨.interface, name⟩
  | .struct name => some ⟨.struct, name⟩
  | .union name => some ⟨.union, name⟩
  | _ => none

/-- A node has an encoding unless it is of an unsupported primitive kind. -/
theorem TypeNode.exists_encoding_iff {node : TypeNode} :
    (∃ e, node.encoding = .ok e) ↔ ∀ kind, node = .primitive kind → kind.isSupported = true := by
  cases node with
  | primitive kind =>
    simp only [primitive.injEq, forall_eq', ← kind.isSome_encoding?, encoding]
    cases hencoding : kind.encoding? with
    | none => simp
    | some e => simp
  | _ => simp [encoding]

theorem Pool.encoding_of_node? {pool : Pool} {id : TypeId} {node : TypeNode}
    (h : pool.node? id = some node) : pool.encoding id = node.encoding := by
  simp [encoding, Pool.node, h, Except.bind]

/-- A handle without a node has no encoding. -/
theorem Pool.exists_encoding_iff {pool : Pool} {id : TypeId} :
    (∃ e, pool.encoding id = .ok e) ↔
      ∃ node, pool.node? id = some node ∧ ∃ e, node.encoding = .ok e := by
  cases hnode : pool.node? id with
  | none => simp [encoding, Pool.node, hnode, Except.bind]
  | some node => simp [encoding_of_node? hnode]

namespace Support

namespace Graph

variable {g : Graph} {id part : TypeId} {node : TypeNode} {key : DeclKey}

/-! ### What is below a type -/

/-- References lead from a type to all below it. -/
theorem leads_of_reaches (h : Reaches g.pool.successors id part) :
    ReflTransGen g.Refers (.type id) (.type part) := by
  refine (reaches_iff.mp h).lift Node.type ?_
  intro whole part hpart
  obtain ⟨node, hnode, hmem⟩ := Pool.mem_successors_iff.mp hpart
  exact .part hnode hmem

/-- A type refers to its parts and to the declaration that it names. -/
theorem refers_type_cases {b : Node} (h : g.Refers (.type id) b) :
    (∃ part ∈ g.pool.successors id, b = .type part) ∨
      ∃ node key, g.pool.node? id = some node ∧ node.declaration? = some key ∧ b = .decl key := by
  cases h with
  | part hnode hmem => exact .inl ⟨_, Pool.mem_successors_iff.mpr ⟨_, hnode, hmem⟩, rfl⟩
  | interface hnode => exact .inr ⟨_, _, hnode, rfl, rfl⟩
  | struct hnode => exact .inr ⟨_, _, hnode, rfl, rfl⟩
  | union hnode => exact .inr ⟨_, _, hnode, rfl, rfl⟩

theorem refers_of_declaration? (hnode : g.pool.node? id = some node)
    (hkey : node.declaration? = some key) : g.Refers (.type id) (.decl key) := by
  unfold TypeNode.declaration? at hkey
  cases node with
  | interface name protocols =>
    cases hkey
    exact .interface hnode
  | struct name =>
    cases hkey
    exact .struct hnode
  | union name =>
    cases hkey
    exact .union hnode
  | _ => cases hkey

/-- All nodes below a type have encodings, and the declarations that they name are supported. -/
def Encodes (g : Graph) (id : TypeId) : Prop :=
  ∀ part node, Reaches g.pool.successors id part → g.pool.node? part = some node →
    (∃ e, node.encoding = .ok e) ∧
      ∀ key, node.declaration? = some key → ¬ g.Unsupported (.decl key)

/-- An unsupported type has below it a node without an encoding, or one that names an unsupported
declaration. -/
theorem not_encodes_of_unsupported (h : g.Unsupported (.type id)) : ¬ g.Encodes id := by
  obtain ⟨last, hleads, hlacks⟩ := h
  suffices hall : ∀ a, ReflTransGen g.Refers a last → ∀ id, a = .type id → ¬ g.Encodes id from
    hall _ hleads id rfl
  intro a hleads
  induction hleads using ReflTransGen.head_induction_on with
  | refl =>
    rintro id rfl hencodes
    obtain ⟨hnode, hkind⟩ := hlacks
    have hencoding := (hencodes id _ (.refl id) hnode).1
    rw [TypeNode.exists_encoding_iff.mp hencoding _ rfl] at hkind
    cases hkind
  | @head a b hrefers hrest ih =>
    rintro id rfl hencodes
    rcases refers_type_cases hrefers with ⟨part, hpart, rfl⟩ | ⟨node, key, hnode, hkey, rfl⟩
    · exact ih part rfl fun below node hbelow => hencodes below node (.step hpart hbelow)
    · exact (hencodes id node (.refl id) hnode).2 key hkey ⟨last, hrest, hlacks⟩

/-- **A type is supported exactly if all nodes below it have encodings and the declarations that
they name are supported.** -/
theorem not_unsupported_type_iff : ¬ g.Unsupported (.type id) ↔ g.Encodes id := by
  constructor
  · intro hsupported part node hreaches hnode
    have hpart : ∀ b, ReflTransGen g.Refers (.type part) b → ¬ g.Unsupported b := by
      rintro b hb ⟨last, hleads, hlacks⟩
      exact hsupported ⟨last, ((leads_of_reaches hreaches).trans hb).trans hleads, hlacks⟩
    constructor
    · rw [TypeNode.exists_encoding_iff]
      rintro kind rfl
      by_contra hkind
      rw [Bool.not_eq_true] at hkind
      exact hpart _ .refl ⟨_, .refl, .primitive hnode hkind⟩
    · exact fun key hkey => hpart _ (.single (refers_of_declaration? hnode hkey))
  · exact fun hencodes hunsupported => not_encodes_of_unsupported hunsupported hencodes

end Graph

/-! ### Support and encodings -/

/-- **If a type is supported, all that is reachable from it has an encoding. Conversely, if all that
is reachable from it has an encoding and none of it refers to an interface, struct or union, the
type is supported.** References must not lead out of the pool. -/
theorem isTypeSupported_encodes (g : Graph) (id : TypeId) (hinside : g.Inside)
    (hid : g.pool.contains id = true) :
    ∃ supported below, isTypeSupported g id = .ok supported ∧ g.pool.reachable [id] = .ok below ∧
      (supported = true → ∀ part ∈ below, ∃ e, g.pool.encoding part = .ok e) ∧
      ((∀ part ∈ below, ∃ e, g.pool.encoding part = .ok e) →
        (∀ part ∈ below, ∀ node, g.pool.node? part = some node → node.declaration? = none) →
        supported = true) := by
  have hhas : ∀ part, Reaches g.pool.successors id part → g.Has (.type part) := fun part hpart =>
    hinside.has_of_leads (a := .type id) hid (Graph.leads_of_reaches hpart)
  obtain ⟨below, hbelow⟩ : ∃ below, g.pool.reachable [id] = .ok below :=
    Pool.reachable_total fun root hroot part hpart =>
      hhas part (List.mem_singleton.mp hroot ▸ hpart)
  have hmem : ∀ part, part ∈ below ↔ Reaches g.pool.successors id part := by
    intro part
    rw [Pool.mem_reachable_iff hbelow]
    simp
  have hjudge : ∀ supported, isTypeSupported g id = .ok supported ↔
      (supported = false ↔ g.Unsupported (.type id)) :=
    fun supported => hinside.judge_eq_ok_iff (hhas id (.refl id))
  obtain ⟨supported, hsupported⟩ : ∃ supported, isTypeSupported g id = .ok supported := by
    by_cases hunsupported : g.Unsupported (.type id)
    · exact ⟨false, (hjudge false).mpr (by simpa using hunsupported)⟩
    · exact ⟨true, (hjudge true).mpr (by simpa using hunsupported)⟩
  have hanswer := (hjudge supported).mp hsupported
  refine ⟨supported, below, hsupported, hbelow, ?_, ?_⟩
  · rintro rfl part hpart
    have hencodes : g.Encodes id := Graph.not_unsupported_type_iff.mp (by simpa using hanswer)
    obtain ⟨node, hnode⟩ := Option.ne_none_iff_exists'.mp
      (Graph.node?_ne_none_of_has (hhas part ((hmem part).mp hpart)))
    exact Pool.exists_encoding_iff.mpr
      ⟨node, hnode, (hencodes part node ((hmem part).mp hpart) hnode).1⟩
  · intro hencoded hunnamed
    rw [← Bool.not_eq_false, hanswer, Graph.not_unsupported_type_iff]
    intro part node hreaches hnode
    have hpart := (hmem part).mpr hreaches
    obtain ⟨node', hnode', hencoding⟩ := Pool.exists_encoding_iff.mp (hencoded part hpart)
    obtain rfl : node = node' := Option.some.inj (hnode.symm.trans hnode')
    refine ⟨hencoding, fun key hkey => ?_⟩
    rw [hunnamed part hpart node hnode] at hkey
    cases hkey

/-! ### Types in loops -/

namespace Looping

/-- A struct that refers to itself through a pointer, a block that takes itself and the pointer, and
a pointer to itself. -/
def pool : Pool :=
  Pool.initial.internAll
    [.struct ⟨"M", "Link"⟩, .pointer ⟨30⟩, .block [.ofPrimitive .void, ⟨31⟩, ⟨32⟩], .pointer ⟨33⟩]

/-- The struct, of which there is one declaration. -/
def graph : Graph :=
  ⟨pool, (DeclTable.ofList [⟨⟨"M", "Link"⟩, .struct [⟨"next", ⟨31⟩⟩]⟩]).toLookup⟩

theorem graph_inside : graph.Inside := by
  refine Graph.inside_of_closed (by decide +kernel) ?_
  intro key d hfind
  have hfound : (DeclTable.ofList [⟨⟨"M", "Link"⟩, .struct [⟨"next", ⟨31⟩⟩]⟩]).get? key = some d :=
    hfind
  rw [DeclTable.get?_ofList] at hfound
  have hinside : ∀ d ∈ [(⟨⟨"M", "Link"⟩, .struct [⟨"next", ⟨31⟩⟩]⟩ : Declaration)],
      d.Inside graph.pool := by decide +kernel
  exact hinside d (List.mem_of_find?_eq_some hfound)

end Looping

/-- The block is supported, so the loops below it have encodings; the pointer to itself has an
encoding, so it is supported. -/
theorem isTypeSupported_encodes_looping :
    Looping.graph.Inside ∧ Looping.pool.contains ⟨32⟩ = true ∧ Looping.pool.contains ⟨33⟩ = true ∧
      (∃ below, Looping.pool.reachable [⟨32⟩] = .ok below ∧ 4 ≤ below.length ∧
        ∀ part ∈ below, ∃ e, Looping.pool.encoding part = .ok e) ∧
      isTypeSupported Looping.graph ⟨33⟩ = .ok true := by
  have hblock : Looping.pool.contains ⟨32⟩ = true := by decide +kernel
  have hpointer : Looping.pool.contains ⟨33⟩ = true := by decide +kernel
  refine ⟨Looping.graph_inside, hblock, hpointer, ?_, ?_⟩
  · obtain ⟨supported, below, hsupported, hbelow, hencodes, -⟩ :=
      isTypeSupported_encodes Looping.graph ⟨32⟩ Looping.graph_inside hblock
    have htrue : isTypeSupported Looping.graph ⟨32⟩ = .ok true := by decide +kernel
    have hlength : (Looping.graph.pool.reachable [⟨32⟩]).map List.length = .ok 4 := by
      decide +kernel
    rw [hbelow] at hlength
    rw [hsupported] at htrue
    exact ⟨below, hbelow, Nat.le_of_eq (Except.ok.inj hlength).symm, hencodes (Except.ok.inj htrue)⟩
  · obtain ⟨supported, below, hsupported, hbelow, -, hsupports⟩ :=
      isTypeSupported_encodes Looping.graph ⟨33⟩ Looping.graph_inside hpointer
    have hself : Looping.graph.pool.reachable [⟨33⟩] = .ok [⟨33⟩] := by decide +kernel
    obtain rfl : below = [⟨33⟩] := Except.ok.inj (hbelow.symm.trans hself)
    have hnode : Looping.graph.pool.node? ⟨33⟩ = some (.pointer ⟨33⟩) := by decide +kernel
    have hpart : ∀ part ∈ [(⟨33⟩ : TypeId)], part = ⟨33⟩ := fun part => List.mem_singleton.mp
    rw [hsupported, hsupports]
    · intro part hmem
      exact ⟨.pointer, by rw [hpart part hmem, Pool.encoding_of_node? hnode]; rfl⟩
    · intro part hmem node hother
      rw [hpart part hmem, hnode] at hother
      cases hother
      rfl

end Support

end ObjcMetadata
