import ObjcMetadata.Proofs.Declaration.Closure
import ObjcMetadata.Proofs.Support.Session
import ObjcMetadata.Proofs.Type.Stack
/-!
The types that a declaration depends on.

A declaration depends on its own types, on those of its contributors and on all that lies below
these types. What contributes is the least set that has the declaration and, with each interface in
it, what the categories and the base of that interface resolve to; only the key of the declaration
itself is not looked up (`Belongs`). Bases and categories may form loops, and so may types.

The types can be gathered with a stack of declarations and, below it, a stack of types, where a key
is marked as soon as it is come across and no type is followed twice (`gatherTypes`). Whether
declarations and types are taken in this order or in rounds, the same types are found, and an
interface has those of its base among its own (`referencedTypes_exact`).
-/

namespace ObjcMetadata

open Relation Reach

namespace Lookup

variable {lookup : Lookup} {links : Declaration → List DeclKey} {marked : List DeclKey}
  {start d e : Declaration} {stack : List Declaration}

/-! ### What belongs to a declaration -/

/-- The least set that has the start and, with each declaration in it, what its links resolve to.
The key of the start is not looked up. -/
inductive Belongs (lookup : Lookup) (links : Declaration → List DeclKey) (start : Declaration) :
    Declaration → Prop where
  | start : Belongs lookup links start start
  | link {key : DeclKey} {d e : Declaration} : Belongs lookup links start d → key ∈ links d →
      key ≠ start.key → lookup.find? key = some e → Belongs lookup links start e

theorem belongs_iff :
    lookup.Belongs links start e ↔ e = start ∨ e ∈ lookup.reached links start := by
  rw [mem_reached_iff]
  constructor
  · intro h
    induction h with
    | start => exact .inl rfl
    | @link key d e _ hlink hne hfind ih =>
      right
      rcases ih with rfl | ⟨key', hne', hfind', a, ha, hleads⟩
      · exact ⟨key, hne, hfind, key, hlink, .refl⟩
      · refine ⟨key, hne, hfind, a, ha, hleads.tail ⟨by simpa using hne', ?_⟩⟩
        exact mem_linked_iff.mpr ⟨d, hfind', hlink⟩
  · rintro (rfl | ⟨key, hne, hfind, a, ha, hleads⟩)
    · exact .start
    · induction hleads generalizing e with
      | refl => exact .link .start ha hne hfind
      | tail _ hstep ih =>
        obtain ⟨hnot, hlinked⟩ := hstep
        obtain ⟨d, hfind', hlink⟩ := mem_linked_iff.mp hlinked
        exact .link (ih (by simpa using hnot) hfind') hlink hne hfind

/-- Unless the key of the start stands for another declaration, every link that resolves leads to
what belongs to the start. -/
theorem Belongs.resolve {key : DeclKey}
    (hown : ∀ other, lookup.find? start.key = some other → other = start)
    (h : lookup.Belongs links start d) (hlink : key ∈ links d) (hfind : lookup.find? key = some e) :
    lookup.Belongs links start e := by
  by_cases hkey : key = start.key
  · obtain rfl := hown e (hkey ▸ hfind)
    exact .start
  · exact .link h hlink hkey hfind

theorem Belongs.trans (hown : ∀ other, lookup.find? start.key = some other → other = start)
    (h : lookup.Belongs links start d) (h' : lookup.Belongs links d e) :
    lookup.Belongs links start e := by
  induction h' with
  | start => exact h
  | link _ hlink _ hfind ih => exact ih.resolve hown hlink hfind

/-! ### Visiting declarations with a stack -/

/-- Each new key that resolves is one key less to be marked. -/
theorem card_unseen_add_length_le (lookup : Lookup) (marked candidates : List DeclKey) :
    (unseen lookup.keys.toFinset (fresh marked candidates ++ marked)).card +
        ((fresh marked candidates).filterMap lookup.find?).length ≤
      (unseen lookup.keys.toFinset marked).card := by
  rw [List.length_filterMap_eq_countP, List.countP_eq_length_filter,
    ← List.toFinset_card_of_nodup ((nodup_fresh marked candidates).filter _),
    ← Finset.card_union_of_disjoint]
  · refine Finset.card_le_card (Finset.union_subset ?_ ?_)
    · refine Finset.monotone_filter_right _ fun key _ hkey => ?_
      exact fun hmem => hkey (List.mem_append_right _ hmem)
    · intro key hkey
      obtain ⟨hnew, hfind⟩ := List.mem_filter.mp (List.mem_toFinset.mp hkey)
      refine Finset.mem_filter.mpr ⟨?_, (mem_fresh.mp hnew).2⟩
      exact List.mem_toFinset.mpr (lookup.mem_keys key hfind)
  · refine Finset.disjoint_left.mpr fun key hkey hnew => ?_
    refine (Finset.mem_filter.mp hkey).2 (List.mem_append_left _ ?_)
    exact (List.mem_filter.mp (List.mem_toFinset.mp hnew)).1

/-- The declarations that come off a stack, in this order. What the unmarked links of a declaration
resolve to is put on top of the stack, and they are marked. -/
def visited (lookup : Lookup) (links : Declaration → List DeclKey) (marked : List DeclKey) :
    (stack : List Declaration) → List Declaration
  | [] => []
  | d :: stack =>
    let new := fresh marked (links d)
    d :: visited lookup links (new ++ marked) ((new.filterMap lookup.find?).reverse ++ stack)
termination_by stack => (unseen lookup.keys.toFinset marked).card + stack.length
decreasing_by
  have hless := card_unseen_add_length_le lookup marked (links d)
  simp only [List.length_append, List.length_reverse, List.length_cons]
  omega

/-- One declaration is the other, or unmarked links lead to it from there. -/
def Leads (lookup : Lookup) (links : Declaration → List DeclKey) (marked : List DeclKey)
    (d e : Declaration) : Prop :=
  e = d ∨ ∃ key, key ∉ marked ∧ lookup.find? key = some e ∧
    ∃ a ∈ links d, ReflTransGen (Follows (lookup.linked links) marked) a key

theorem Leads.of_append {new : List DeclKey} (h : lookup.Leads links (new ++ marked) d e) :
    lookup.Leads links marked d e := by
  refine h.imp_right ?_
  rintro ⟨key, hkey, hfind, a, ha, hleads⟩
  exact ⟨key, fun hmem => hkey (List.mem_append_right _ hmem), hfind, a, ha,
    follows_of_append new hleads⟩

/-- A new link leads to what it resolves to, and on from there. -/
theorem Leads.of_fresh {key : DeclKey} {c : Declaration} (hkey : key ∈ fresh marked (links d))
    (hfind : lookup.find? key = some c) (h : lookup.Leads links marked c e) :
    lookup.Leads links marked d e := by
  obtain ⟨hlink, hunmarked⟩ := mem_fresh.mp hkey
  right
  rcases h with rfl | ⟨last, hlast, hfound, a, ha, hleads⟩
  · exact ⟨key, hunmarked, hfind, key, hlink, .refl⟩
  · refine ⟨last, hlast, hfound, key, hlink, hleads.head ⟨hunmarked, ?_⟩⟩
    exact mem_linked_iff.mpr ⟨c, hfind, ha⟩

/-- What is led to without some keys, or else from what the last of them resolves to. -/
theorem Leads.append_or (h : lookup.Leads links marked d e) (new : List DeclKey) :
    lookup.Leads links (new ++ marked) d e ∨
      ∃ key ∈ new, ∃ c, lookup.find? key = some c ∧ lookup.Leads links (new ++ marked) c e := by
  rcases h with rfl | ⟨last, hlast, hfind, a, ha, hleads⟩
  · exact .inl (.inl rfl)
  have hunmarked (hnew : last ∉ new) : last ∉ new ++ marked := by simp [hnew, hlast]
  rcases follows_append_or hleads new with ⟨hnew, hleads⟩ | ⟨key, hkey, rfl | ⟨hnew, b, hb, hleads⟩⟩
  · exact .inl (.inr ⟨last, hunmarked hnew, hfind, a, ha, hleads⟩)
  · exact .inr ⟨last, hkey, e, hfind, .inl rfl⟩
  · obtain ⟨c, hfindc, hlink⟩ := mem_linked_iff.mp hb
    exact .inr ⟨key, hkey, c, hfindc, .inr ⟨last, hunmarked hnew, hfind, b, hlink, hleads⟩⟩

theorem Leads.eq_of_marked (h : lookup.Leads links marked d e)
    (hlinks : ∀ a ∈ links d, a ∈ marked) : e = d := by
  rcases h with heq | ⟨last, hlast, -, a, ha, hleads⟩
  · exact heq
  · exact absurd (eq_of_follows (hlinks a ha) hleads ▸ hlinks a ha) hlast

/-- **What comes off a stack** is what is on it, and what unmarked links lead to from there. -/
theorem mem_visited_iff :
    e ∈ lookup.visited links marked stack ↔ ∃ d ∈ stack, lookup.Leads links marked d e := by
  fun_induction visited lookup links marked stack with
  | case1 => simp
  | case2 marked d stack new ih =>
    rw [List.mem_cons, ih]
    constructor
    · rintro (rfl | ⟨c, hc, hleads⟩)
      · exact ⟨e, List.mem_cons_self, .inl rfl⟩
      rcases List.mem_append.mp hc with hc | hc
      · obtain ⟨key, hkey, hfind⟩ := List.mem_filterMap.mp (List.mem_reverse.mp hc)
        exact ⟨d, List.mem_cons_self, hleads.of_append.of_fresh hkey hfind⟩
      · exact ⟨c, List.mem_cons_of_mem d hc, hleads.of_append⟩
    · rintro ⟨c, hc, hleads⟩
      rcases hleads.append_or new with hleads | ⟨key, hkey, c', hfind, hleads⟩
      · rcases List.mem_cons.mp hc with rfl | hc
        · -- all links of the declaration that comes off are marked by then
          refine .inl (hleads.eq_of_marked fun a ha => ?_)
          by_cases hmarked : a ∈ marked
          · exact List.mem_append_right _ hmarked
          · exact List.mem_append_left _ (mem_fresh.mpr ⟨ha, hmarked⟩)
        · exact .inr ⟨c, List.mem_append_right _ hc, hleads⟩
      · refine .inr ⟨c', List.mem_append_left _ (List.mem_reverse.mpr ?_), hleads⟩
        exact List.mem_filterMap.mpr ⟨key, hkey, hfind⟩

/-- A stack finds what belongs to a declaration. -/
theorem mem_visited_iff_belongs :
    e ∈ lookup.visited links [start.key] [start] ↔ lookup.Belongs links start e := by
  rw [mem_visited_iff, belongs_iff, mem_reached_iff]
  simp [Leads]

end Lookup

/-! ### Types of all that contributes -/

theorem Declaration.mem_contributors_of_base? {d : Declaration} {name : QualifiedName}
    (h : d.base? = some name) : ⟨.interface, name⟩ ∈ d.contributors := by
  obtain ⟨own, body⟩ := d
  cases body with
  | interface i =>
    have hbase : i.base = some name := h
    simp [contributors, interface?, hbase]
  | _ => cases h

open Declaration Lookup

variable {pool : Pool} {lookup : Lookup} {d e : Declaration} {id : TypeId}

/-- Gathers the types of the declarations on a stack, and of those that are put on it on the way,
with all that lies below these types. -/
def gatherTypes (pool : Pool) (lookup : Lookup) (marked : List DeclKey) (types : List TypeId) :
    (stack : List Declaration) → Except TypeError (List TypeId)
  | [] => .ok types
  | d :: stack =>
    match d.ownTypes.foldlM (fun seen id => pool.gather seen [id]) types with
    | .error e => .error e
    | .ok types =>
      let new := fresh marked d.contributors
      gatherTypes pool lookup (new ++ marked) types
        ((new.filterMap lookup.find?).reverse ++ stack)
termination_by stack => (unseen lookup.keys.toFinset marked).card + stack.length
decreasing_by
  have hless := card_unseen_add_length_le lookup marked d.contributors
  simp only [List.length_append, List.length_reverse, List.length_cons]
  omega

/-- The types of each declaration are gathered when it comes off the stack. -/
theorem gatherTypes_eq (pool : Pool) (lookup : Lookup) (marked : List DeclKey)
    (types : List TypeId) (stack : List Declaration) :
    gatherTypes pool lookup marked types stack =
      ((lookup.visited contributors marked stack).flatMap ownTypes).foldlM
        (fun seen id => pool.gather seen [id]) types := by
  fun_induction gatherTypes pool lookup marked types stack with
  | case1 => rw [visited]; rfl
  | case2 marked types d stack e hfails =>
    rw [visited, List.flatMap_cons, List.foldlM_append, hfails]
    rfl
  | case3 marked types d stack types' hgathered new ih =>
    rw [visited, List.flatMap_cons, List.foldlM_append, hgathered, ih]
    rfl

theorem exists_declaration_iff {P : TypeId → Prop} :
    (∃ root ∈ (d :: lookup.reached contributors d).flatMap ownTypes, P root) ↔
      ∃ e, lookup.Belongs contributors d e ∧ ∃ root ∈ e.ownTypes, P root := by
  simp only [List.mem_flatMap, List.mem_cons, belongs_iff]
  constructor
  · rintro ⟨root, ⟨e, he, hroot⟩, hP⟩
    exact ⟨e, he, root, hroot, hP⟩
  · rintro ⟨e, he, root, hroot, hP⟩
    exact ⟨root, ⟨e, he, hroot⟩, hP⟩

theorem inside_of_belongs (hd : d.Inside pool)
    (hdecls : ∀ key e, lookup.find? key = some e → e.Inside pool)
    (h : lookup.Belongs contributors d e) : e.Inside pool := by
  cases h with
  | start => exact hd
  | link _ _ _ hfind => exact hdecls _ e hfind

/-- The types are found unless one of them leads out of the pool. -/
theorem referencedTypes_total (hpool : pool.Closed) (hd : d.Inside pool)
    (hdecls : ∀ key e, lookup.find? key = some e → e.Inside pool) :
    (∃ types, referencedTypes pool lookup d = .ok types) ∧
      ∃ found, gatherTypes pool lookup [d.key] [] [d] = .ok found := by
  constructor
  · refine Pool.reachable_total fun root hroot id => hpool.contains_of_reaches ?_
    obtain ⟨e, he, hroot⟩ := List.mem_flatMap.mp hroot
    exact inside_of_belongs hd hdecls (belongs_iff.mpr (List.mem_cons.mp he)) root hroot
  · rw [gatherTypes_eq]
    refine Pool.gatherAll_total hpool fun root hroot => ?_
    obtain ⟨e, he, hroot⟩ := List.mem_flatMap.mp hroot
    exact inside_of_belongs hd hdecls (mem_visited_iff_belongs.mp he) root hroot

theorem mem_referencedTypes_iff {types : List TypeId}
    (h : referencedTypes pool lookup d = .ok types) :
    id ∈ types ↔ ∃ e, lookup.Belongs contributors d e ∧
      ∃ root ∈ e.ownTypes, Reaches pool.successors root id :=
  (Pool.mem_reachable_iff h).trans exists_declaration_iff

theorem gatherTypes_perm {types found : List TypeId}
    (h : gatherTypes pool lookup [d.key] [] [d] = .ok found)
    (htypes : referencedTypes pool lookup d = .ok types) : found.Perm types ∧ types.Nodup := by
  rw [gatherTypes_eq] at h
  refine Pool.gatherAll_perm (fun root => ?_) h htypes
  simp only [List.mem_flatMap, mem_visited_iff_belongs, belongs_iff, List.mem_cons]

/-- **The types that a declaration depends on are found, each once, whatever loops there are**: they
are what lies below the own types of the declarations that belong to it. A stack finds the same
ones. An interface whose key stands for itself or for nothing has those of its base among them. -/
theorem referencedTypes_exact (pool : Pool) (lookup : Lookup) (d : Declaration)
    (hpool : pool.Closed) (hd : d.Inside pool)
    (hdecls : ∀ key e, lookup.find? key = some e → e.Inside pool) :
    ∃ types, referencedTypes pool lookup d = .ok types ∧
      (∃ found, gatherTypes pool lookup [d.key] [] [d] = .ok found ∧
        found.Perm types ∧ types.Nodup) ∧
      (∀ id, id ∈ types ↔ ∃ e, lookup.Belongs contributors d e ∧
        ∃ root ∈ e.ownTypes, Reaches pool.successors root id) ∧
      ((∀ other, lookup.find? d.key = some other → other = d) →
        ∀ name base, d.base? = some name → lookup.find? ⟨.interface, name⟩ = some base →
          ∃ inherited, referencedTypes pool lookup base = .ok inherited ∧ inherited ⊆ types) := by
  obtain ⟨⟨types, htypes⟩, found, hfound⟩ := referencedTypes_total hpool hd hdecls
  refine ⟨types, htypes, ⟨found, hfound, gatherTypes_perm hfound htypes⟩,
    fun _ => mem_referencedTypes_iff htypes, ?_⟩
  intro hown name base hname hbase
  obtain ⟨⟨inherited, hinherited⟩, -⟩ :=
    referencedTypes_total hpool (hdecls _ base hbase) hdecls
  refine ⟨inherited, hinherited, fun id hid => ?_⟩
  obtain ⟨e, he, hroots⟩ := (mem_referencedTypes_iff hinherited).mp hid
  have hlink : ⟨.interface, name⟩ ∈ d.contributors := mem_contributors_of_base? hname
  have hbelongs : lookup.Belongs contributors d base := Belongs.start.resolve hown hlink hbase
  exact (mem_referencedTypes_iff htypes).mpr ⟨e, hbelongs.trans hown he, hroots⟩

namespace Contributing

/-- Two pointers to each other. -/
def pointers : Pool :=
  .ofHistory [.pointer ⟨31⟩, .pointer ⟨30⟩]

/-- A method that returns a type. -/
def returning (type : TypeId) : Members where
  instanceMethods := [⟨"value", [type], {}⟩]

/-- An interface whose base has it as its base, and that adopts a category. -/
def view : Declaration :=
  ⟨⟨"M", "View"⟩, .interface
    { base := some ⟨"M", "Root"⟩, categories := [⟨"M", "Extras"⟩, ⟨"M", "Missing"⟩],
      members := returning ⟨4⟩ }⟩

/-- Its base. -/
def root : Declaration :=
  ⟨⟨"M", "Root"⟩, .interface { base := some ⟨"M", "View"⟩, members := returning ⟨31⟩ }⟩

/-- The category. -/
def extras : Declaration :=
  ⟨⟨"M", "Extras"⟩, .category { extended := ⟨"M", "View"⟩, members := returning ⟨5⟩ }⟩

/-- All three declarations. -/
def table : DeclTable :=
  .ofList [view, root, extras]

/-- The types of both interfaces and of the category are found for either interface. -/
theorem referencedTypes_view :
    pointers.Closed ∧ view.Inside pointers ∧
      (∀ key e, table.toLookup.find? key = some e → e.Inside pointers) ∧
      table.toLookup.find? view.key = some view ∧
      table.toLookup.find? ⟨.interface, ⟨"M", "Root"⟩⟩ = some root ∧
      ∃ found, gatherTypes pointers table.toLookup [view.key] [] [view] = .ok found ∧
        found.Perm [⟨30⟩, ⟨31⟩, ⟨5⟩, ⟨4⟩] ∧
        ∃ inherited, referencedTypes pointers table.toLookup root = .ok inherited ∧
          inherited ⊆ [⟨30⟩, ⟨31⟩, ⟨5⟩, ⟨4⟩] := by
  have hpool : pointers.Closed := by decide +kernel
  have hview : view.Inside pointers := by decide +kernel
  have hdecls : ∀ key e, table.toLookup.find? key = some e → e.Inside pointers := by
    intro key e hfind
    have hfound : table.get? key = some e := hfind
    rw [table, DeclTable.get?_ofList] at hfound
    have hinside : ∀ e ∈ [view, root, extras], e.Inside pointers := by decide +kernel
    exact hinside e (List.mem_of_find?_eq_some hfound)
  have hself : table.toLookup.find? view.key = some view := by decide +kernel
  have hroot : table.toLookup.find? ⟨.interface, ⟨"M", "Root"⟩⟩ = some root := by decide +kernel
  obtain ⟨types, htypes, ⟨found, hfound, hperm, -⟩, -, hbase⟩ :=
    referencedTypes_exact pointers table.toLookup view hpool hview hdecls
  have hrounds : referencedTypes pointers table.toLookup view = .ok [⟨30⟩, ⟨31⟩, ⟨5⟩, ⟨4⟩] := by
    decide +kernel
  obtain rfl := Except.ok.inj (htypes.symm.trans hrounds)
  obtain ⟨inherited, hinherited, hsubset⟩ :=
    hbase (fun other hother => Option.some.inj (hother.symm.trans hself)) _ root rfl hroot
  exact ⟨hpool, hview, hdecls, hself, hroot, found, hfound, hperm, inherited, hinherited, hsubset⟩

end Contributing

end ObjcMetadata
