import Mathlib.Order.WellFoundedSet
import ObjcMetadata.Proofs.Batch.Hierarchy
/-!
Ancestors in a batch without cycles.

What a module sees above a declaration are ancestors as given, if the protocols that categories
bring to the interfaces of their modules count (`Links`, `Ascends.links`). Such protocols close no
cycle, since protocols lead to nothing but protocols. So if bases and adopted protocols form no
cycle, a property of all declarations of the batch may be shown from ancestors downwards
(`ancestors_induction`).
-/

namespace ObjcMetadata.Batch

open Relation Declaration

variable {o : Options} {pool : Pool} {modules : List Module} {i : Nat} {m : Module}
  {d : Declaration} {a b p : DeclKey}

/-! ### Links -/

/-- The parents that a key has as given, with those that categories of its module bring. -/
inductive Links (modules : List Module) (a b : DeclKey) : Prop where
  | given : Inherits modules a b → Links modules a b
  | category {i : Nat} {c d : Declaration} : Declares modules i c → c.Extends a →
      Declares modules i d → d.key = a → b ∈ c.parents → Links modules a b

/-- A declaration of the batch, as given, adopts a protocol. -/
def Adopts (modules : List Module) (a b : DeclKey) : Prop :=
  Inherits modules a b ∧ b.kind = .protocol

/-- Only interfaces name interfaces as parents. -/
theorem kind_of_interface_parent (h : p ∈ d.parents) (hp : p.kind = .interface) :
    d.kind = .interface := by
  rcases mem_parents.mp h with ⟨base, hbase, rfl⟩ | ⟨name, -, rfl⟩
  · exact kind_of_base? hbase
  · cases hp

namespace Links

theorem kind (h : Links modules a b) : b.kind = .interface ∨ b.kind = .protocol := by
  cases h with
  | given h =>
    obtain ⟨i, d, -, -, hb⟩ := h
    exact kind_of_parent hb
  | category _ _ _ _ hb => exact kind_of_parent hb

/-- A link to an interface is given, and it comes from an interface. -/
theorem of_interface (h : Links modules a b) (hb : b.kind = .interface) :
    Inherits modules a b ∧ a.kind = .interface := by
  cases h with
  | given h =>
    refine ⟨h, ?_⟩
    obtain ⟨i, d, -, rfl, hparent⟩ := h
    exact kind_of_interface_parent hparent hb
  | category _ hextends _ _ hparent =>
    have hinterface := kind_of_interface_parent hparent hb
    exact absurd (hextends.kind.1.symm.trans hinterface) (by decide)

/-- A link from a protocol is the adoption of another one. -/
theorem of_protocol (h : Links modules a b) (ha : a.kind = .protocol) : Adopts modules a b := by
  have hb : b.kind = .protocol := by
    refine h.kind.resolve_left fun hb => ?_
    exact absurd (ha.symm.trans (h.of_interface hb).2) (by decide)
  refine ⟨?_, hb⟩
  cases h with
  | given h => exact h
  | category _ hextends _ _ _ => exact absurd (ha.symm.trans hextends.kind.2) (by decide)

end Links

theorem inherits_of_interface (h : TransGen (Links modules) a b) (hb : b.kind = .interface) :
    TransGen (Inherits modules) a b := by
  induction h with
  | single h => exact .single (h.of_interface hb).1
  | tail _ h ih =>
    obtain ⟨hgiven, hkind⟩ := h.of_interface hb
    exact (ih hkind).tail hgiven

theorem adopts_of_protocol (h : TransGen (Links modules) a b) (ha : a.kind = .protocol) :
    TransGen (Adopts modules) a b ∧ b.kind = .protocol := by
  induction h with
  | single h => exact ⟨.single (h.of_protocol ha), (h.of_protocol ha).2⟩
  | tail _ h ih =>
    obtain ⟨hleads, hkind⟩ := ih
    exact ⟨hleads.tail (h.of_protocol hkind), (h.of_protocol hkind).2⟩

/-- What links lead to is an interface or a protocol. -/
theorem kind_of_links (h : TransGen (Links modules) a b) :
    b.kind = .interface ∨ b.kind = .protocol := by
  cases h with
  | single h => exact h.kind
  | tail _ h => exact h.kind

/-! ### No cycles -/

/-- Bases and adopted protocols form no cycle. -/
def Acyclic (modules : List Module) : Prop :=
  ∀ key, ¬ TransGen (Inherits modules) key key

theorem Acyclic.links (h : Acyclic modules) (key : DeclKey) :
    ¬ TransGen (Links modules) key key := by
  intro hcycle
  rcases kind_of_links hcycle with hkind | hkind
  · exact h key (inherits_of_interface hcycle hkind)
  · obtain ⟨hadopts, -⟩ := adopts_of_protocol hcycle hkind
    have hinherits : Adopts modules ≤ Inherits modules := fun _ _ hstep => hstep.1
    exact h key (TransGen.mono hinherits _ _ hadopts)

/-- A rank that decreases towards parents excludes cycles. -/
theorem acyclic_of_rank (rank : DeclKey → Nat)
    (h : ∀ d ∈ modules.flatMap Module.declarations, ∀ p ∈ d.parents, rank p < rank d.key) :
    Acyclic modules := by
  intro key hcycle
  have hless : ∀ {a b}, TransGen (Inherits modules) a b → rank b < rank a := by
    intro a b hleads
    induction hleads with
    | single hstep =>
      obtain ⟨i, d, hd, rfl, hb⟩ := hstep
      exact h d hd.mem _ hb
    | tail _ hstep ih =>
      obtain ⟨i, d, hd, rfl, hb⟩ := hstep
      exact (h d hd.mem _ hb).trans ih
  exact Nat.lt_irrefl _ (hless hcycle)

/-- **What follows from ancestors downwards** holds of all declarations of a batch without
cycles. -/
theorem ancestors_induction (hacyclic : Acyclic modules) {P : DeclKey → Prop}
    (h : ∀ i d, Declares modules i d →
      (∀ j e, Declares modules j e → TransGen (Links modules) d.key e.key → P e.key) → P d.key)
    (hd : Declares modules i d) : P d.key := by
  let keys : Set DeclKey := {k | k ∈ (modules.flatMap Module.declarations).map key}
  let above : DeclKey → DeclKey → Prop := fun b a => TransGen (Links modules) a b
  have horder : IsStrictOrder DeclKey above :=
    { irrefl := hacyclic.links, trans := fun _ _ _ hab hbc => hbc.trans hab }
  have hwell : keys.WellFoundedOn above := (List.finite_toSet _).wellFoundedOn
  have hmem : ∀ {i d}, Declares modules i d → d.key ∈ keys := fun hd => List.mem_map_of_mem hd.mem
  refine hwell.induction (hmem hd) ?_
  intro key hkey ih
  obtain ⟨d, hd, rfl⟩ := List.mem_map.mp hkey
  obtain ⟨m, hm, hd⟩ := List.mem_flatMap.mp hd
  obtain ⟨i, hi⟩ := List.mem_iff_getElem?.mp hm
  exact h i d ⟨m, hi, hd⟩ fun j e he hleads => ih e.key (hmem he) hleads

/-! ### What modules see -/

/-- The chain of bases that replaces a removed one is linked. -/
theorem links_of_rebase (hkeys : DistinctKeys modules) (hm : modules[i]? = some m)
    (hd : Declares modules i d) {base last : QualifiedName} (hbase : ⟨.interface, base⟩ ∈ d.parents)
    (hlast : rebase o pool modules i m base = some last) :
    TransGen (Links modules) d.key ⟨.interface, last⟩ := by
  obtain ⟨-, hclimbs⟩ := (rebase_eq_some_iff hkeys hm).mp hlast
  have hchain : ReflTransGen (Links modules) ⟨.interface, base⟩ ⟨.interface, last⟩ := by
    refine hclimbs.lift (DeclKey.mk .interface) ?_
    rintro current next ⟨-, j, e, he, hkey, hnext⟩
    exact .given ⟨j, e, he, hkey, mem_parents.mpr (.inl ⟨next, hnext, rfl⟩)⟩
  exact .head' (.given ⟨i, d, hd, rfl, hbase⟩) hchain

/-- **What a module sees above are ancestors as given.** -/
theorem Ascends.links (hkeys : DistinctKeys modules) (h : Ascends o pool modules i a b) :
    TransGen (Links modules) a b := by
  obtain ⟨e, hsees, rfl, hb⟩ := h
  cases hsees with
  | @other j e _ he => exact .single (.given ⟨j, e, he, rfl, hb⟩)
  | own hown =>
    obtain ⟨m, hm, d, hd, hchanged, -⟩ := hown.source hkeys
    have hdeclares : Declares modules i d := ⟨m, hm, hd⟩
    rw [hchanged.key]
    rcases hchanged.parents_from b hb with hgiven | hrebased | ⟨-, c, hc, hextends, hb⟩
    · exact .single (.given ⟨i, d, hdeclares, rfl, hgiven⟩)
    · obtain ⟨g, hg, hkey, base, -, hbase, last, hlast, rfl⟩ := hrebased
      rw [← hkey]
      exact links_of_rebase hkeys hm ⟨m, hm, hg⟩ hbase hlast
    · exact .single (.category ⟨m, hm, hc⟩ hextends hdeclares rfl hb)

theorem links_of_above (hkeys : DistinctKeys modules)
    (h : TransGen (Ascends o pool modules i) a b) : TransGen (Links modules) a b :=
  TransGen.closed (fun _ _ hstep => hstep.links hkeys) a b h

theorem links_of_ascends (hkeys : DistinctKeys modules)
    (h : ReflTransGen (Ascends o pool modules i) a b) : ReflTransGen (Links modules) a b := by
  rcases reflTransGen_iff_eq_or_transGen.mp h with rfl | habove
  · exact .refl
  · exact (links_of_above hkeys habove).to_reflTransGen

end ObjcMetadata.Batch
