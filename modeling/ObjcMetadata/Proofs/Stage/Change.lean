import ObjcMetadata.Proofs.Declaration.Member
import ObjcMetadata.Proofs.Stage.Removal
import ObjcMetadata.Proofs.Stage.Unsupported
/-!
How stages change what declarations hand down.

A declaration hands down its members and what its parents hand down. A `Change` says what may become
of members and of links to parents: a link is lost to a name that is removed and gained from a
base that replaces it or from a category, a member is lost if it is unsupported and gained from a
category, and corrections may replace a class method. Each stage up to the merging of categories
revises the declarations before it by such a change (`Declaration.Changed`), and so does one stage
after another.
-/

namespace ObjcMetadata

open Support

/-! ### Links and members of one declaration -/

namespace Declaration

variable {d d' : Declaration} {p : DeclKey} {members members' : Members}

theorem mem_parents :
    p ∈ d.parents ↔ (∃ base, d.base? = some base ∧ p = ⟨.interface, base⟩) ∨
      ∃ name ∈ d.protocols, p = ⟨.protocol, name⟩ := by
  unfold parents
  simp only [List.mem_append, List.mem_map, Option.mem_toList, eq_comm]

theorem kind_of_parent (h : p ∈ d.parents) : p.kind = .interface ∨ p.kind = .protocol := by
  rcases mem_parents.mp h with ⟨base, -, rfl⟩ | ⟨name, -, rfl⟩
  · exact .inl rfl
  · exact .inr rfl

@[simp] theorem parents_withMembers (d : Declaration) (members : Members) :
    (d.withMembers members).parents = d.parents := by
  obtain ⟨name, body⟩ := d
  cases body <;> rfl

theorem entries_withMembers (h : d.members? = some members) :
    (d.withMembers members').entries = members'.entries :=
  entries_of_members? (by simp [h])

/-- The interface that a category extends. -/
def extended? (d : Declaration) : Option QualifiedName :=
  d.category?.map (·.extended)

@[simp] theorem extended?_withMembers (d : Declaration) (members : Members) :
    (d.withMembers members).extended? = d.extended? := by
  simp [extended?, Function.comp_def]

/-- A declaration is a category of the interface of a key. -/
def Extends (d : Declaration) (key : DeclKey) : Prop :=
  ∃ name, d.extended? = some name ∧ key = ⟨.interface, name⟩

theorem kind_of_extended? {name : QualifiedName} (h : d.extended? = some name) :
    d.kind = .category := by
  obtain ⟨own, body⟩ := d
  cases body with
  | category c => rfl
  | _ => cases h

theorem Extends.kind {key : DeclKey} (h : d.Extends key) :
    d.kind = .category ∧ key.kind = .interface := by
  obtain ⟨name, hextended, rfl⟩ := h
  exact ⟨kind_of_extended? hextended, rfl⟩

theorem base?_of_mem_parents {base : QualifiedName} (h : ⟨.interface, base⟩ ∈ d.parents) :
    d.base? = some base := by
  rcases mem_parents.mp h with ⟨base', hbase, heq⟩ | ⟨name, -, heq⟩
  · cases heq
    exact hbase
  · cases heq

end Declaration

/-! ### Changes -/

/-- What may become of links and members: which parents may be given up, and, by the key of a
declaration, which parents may be taken on and which members may be lost and gained. -/
structure Change where
  unlinks : DeclKey → Prop := fun _ => False
  links : DeclKey → DeclKey → Prop := fun _ _ => False
  loses : DeclKey → Member → Prop := fun _ _ => False
  gains : DeclKey → Member → Prop := fun _ _ => False

/-- One change allows no more than another. -/
structure Change.Within (c c' : Change) : Prop where
  unlinks : ∀ p, c.unlinks p → c'.unlinks p
  links : ∀ key p, c.links key p → c'.links key p
  loses : ∀ key x, c.loses key x → c'.loses key x
  gains : ∀ key x, c.gains key x → c'.gains key x

/-- One declaration comes from another by a change. -/
structure Declaration.Changed (c : Change) (d d' : Declaration) : Prop where
  key : d'.key = d.key
  extended : d'.extended? = d.extended?
  parents_kept : ∀ p ∈ d.parents, p ∈ d'.parents ∨ c.unlinks p
  parents_from : ∀ p ∈ d'.parents, p ∈ d.parents ∨ c.links d.key p
  entries_kept : ∀ x ∈ d.entries, x ∈ d'.entries ∨ c.loses d.key x
  entries_from : ∀ x ∈ d'.entries, x ∈ d.entries ∨ c.gains d.key x

namespace Declaration.Changed

variable {c c' : Change} {d d' d'' : Declaration}

theorem refl (d : Declaration) : d.Changed c d where
  key := rfl
  extended := rfl
  parents_kept _ hp := .inl hp
  parents_from _ hp := .inl hp
  entries_kept _ hx := .inl hx
  entries_from _ hx := .inl hx

theorem trans (h : d.Changed c d') (h' : d'.Changed c d'') : d.Changed c d'' where
  key := h'.key.trans h.key
  extended := h'.extended.trans h.extended
  parents_kept p hp := by
    rcases h.parents_kept p hp with hp | hp
    · exact h'.parents_kept p hp
    · exact .inr hp
  parents_from p hp := by
    rcases h'.parents_from p hp with hp | hp
    · exact h.parents_from p hp
    · exact .inr (h.key ▸ hp)
  entries_kept x hx := by
    rcases h.entries_kept x hx with hx | hx
    · exact h.key ▸ h'.entries_kept x hx
    · exact .inr hx
  entries_from x hx := by
    rcases h'.entries_from x hx with hx | hx
    · exact h.entries_from x hx
    · exact .inr (h.key ▸ hx)

theorem extends_iff (h : d.Changed c d') {key : DeclKey} : d'.Extends key ↔ d.Extends key := by
  unfold Extends
  rw [h.extended]

theorem mono (hc : c.Within c') (h : d.Changed c d') : d.Changed c' d' where
  key := h.key
  extended := h.extended
  parents_kept p hp := (h.parents_kept p hp).imp_right (hc.unlinks p)
  parents_from p hp := (h.parents_from p hp).imp_right (hc.links d.key p)
  entries_kept x hx := (h.entries_kept x hx).imp_right (hc.loses d.key x)
  entries_from x hx := (h.entries_from x hx).imp_right (hc.gains d.key x)

/-- Other members change a declaration as far as they are others. -/
theorem withMembers {members members' : Members} (hmembers : d.members? = some members)
    (hkept : ∀ x ∈ members.entries, x ∈ members'.entries ∨ c.loses d.key x)
    (hfrom : ∀ x ∈ members'.entries, x ∈ members.entries ∨ c.gains d.key x) :
    d.Changed c (d.withMembers members') where
  key := d.key_withMembers members'
  extended := d.extended?_withMembers members'
  parents_kept p hp := .inl (by simpa using hp)
  parents_from p hp := .inl (by simpa using hp)
  entries_kept x hx := by
    rw [entries_withMembers hmembers]
    rw [entries_of_members? hmembers] at hx
    exact hkept x hx
  entries_from x hx := by
    rw [entries_of_members? hmembers]
    rw [entries_withMembers hmembers] at hx
    exact hfrom x hx

/-- A change of a declaration is one of its base, its protocols and its members. -/
theorem of_parts (hkey : d'.key = d.key) (hextended : d'.extended? = d.extended?)
    (hbase : ∀ base, d.base? = some base → d'.base? = some base ∨ c.unlinks ⟨.interface, base⟩)
    (hbase' : ∀ base, d'.base? = some base →
      d.base? = some base ∨ c.links d.key ⟨.interface, base⟩)
    (hprotocols : ∀ name ∈ d.protocols, name ∈ d'.protocols ∨ c.unlinks ⟨.protocol, name⟩)
    (hprotocols' : ∀ name ∈ d'.protocols, name ∈ d.protocols ∨ c.links d.key ⟨.protocol, name⟩)
    (hkept : ∀ x ∈ d.entries, x ∈ d'.entries ∨ c.loses d.key x)
    (hfrom : ∀ x ∈ d'.entries, x ∈ d.entries ∨ c.gains d.key x) : d.Changed c d' where
  key := hkey
  extended := hextended
  parents_kept p hp := by
    simp only [mem_parents] at hp ⊢
    rcases hp with ⟨base, hp, rfl⟩ | ⟨name, hp, rfl⟩
    · exact (hbase base hp).imp_left fun h => .inl ⟨base, h, rfl⟩
    · exact (hprotocols name hp).imp_left fun h => .inr ⟨name, h, rfl⟩
  parents_from p hp := by
    simp only [mem_parents] at hp ⊢
    rcases hp with ⟨base, hp, rfl⟩ | ⟨name, hp, rfl⟩
    · exact (hbase' base hp).imp_left fun h => .inl ⟨base, h, rfl⟩
    · exact (hprotocols' name hp).imp_left fun h => .inr ⟨name, h, rfl⟩
  entries_kept := hkept
  entries_from := hfrom

/-- An interface with the same base, whose protocols and members may be others. -/
theorem interface {i i' : Interface} (hbody : d.body = .interface i) (hbase : i'.base = i.base)
    (hprotocols : ∀ name ∈ i.protocols, name ∈ i'.protocols)
    (hprotocols' : ∀ name ∈ i'.protocols, name ∈ i.protocols ∨ c.links d.key ⟨.protocol, name⟩)
    (hkept : ∀ x ∈ i.members.entries, x ∈ i'.members.entries ∨ c.loses d.key x)
    (hfrom : ∀ x ∈ i'.members.entries, x ∈ i.members.entries ∨ c.gains d.key x) :
    d.Changed c { d with body := .interface i' } := by
  refine of_parts (by simp [Declaration.key, kind, hbody]) ?_ ?_ ?_ ?_ ?_ ?_ ?_
  · simp [extended?, category?, hbody]
  · simp +contextual [base?, interface?, hbody, hbase]
  · simp +contextual [base?, interface?, hbody, hbase]
  · simpa [protocols, hbody] using fun name hname => .inl (hprotocols name hname)
  · simpa [protocols, hbody] using hprotocols'
  · simpa [entries, members?, hbody] using hkept
  · simpa [entries, members?, hbody] using hfrom

instance (c : Change) : Evolves (Changed c) where
  key h := h.key
  refl := .refl
  trans := .trans

end Declaration.Changed

/-- A change that allows more tells of the same revision, where no more is to stay. -/
theorem Revision.within {c c' : Change} {stays stays' : DeclKey → Prop}
    {before after : List Declaration}
    (h : Revision (Declaration.Changed c) stays before after) (hc : c.Within c')
    (hstays : ∀ key, stays' key → stays key) :
    Revision (Declaration.Changed c') stays' before after :=
  h.mono (fun _ _ => Declaration.Changed.mono hc) hstays

/-! ### Corrections -/

namespace ExceptionRule

open Declaration

/-- A rule gives the class method of an interface another return type. -/
def Overrides (rules : List ExceptionRule) (key : DeclKey) (m : Method) (type : TypeId) : Prop :=
  ∃ interface, .overrideReturn interface m.selector type ∈ rules ∧ key = ⟨.interface, interface⟩

/-- Corrections replace class methods by others with the right return type. -/
def change (rules : List ExceptionRule) : Change where
  loses key x := ∃ m type, x = .classMethod m ∧ Overrides rules key m type ∧
    m.returnType? ≠ some type
  gains key x := ∃ m type, x = .classMethod m ∧ Overrides rules key m type ∧
    m.returnType? = some type

variable {m : Method} {type : TypeId}

/-- The corrections for the iOS headers concern one class method. -/
theorem overrides_iosSdk_iff {key : DeclKey} :
    Overrides iosSdk key m type ↔
      key = ⟨.interface, ⟨"Foundation", "NSNull"⟩⟩ ∧ m.selector = "null" ∧
        type = .instancetype := by
  unfold Overrides iosSdk
  simp only [List.mem_cons, List.not_mem_nil, reduceCtorEq, overrideReturn.injEq, false_or,
    or_false]
  constructor
  · rintro ⟨interface, ⟨rfl, hselector, rfl⟩, rfl⟩
    exact ⟨rfl, hselector, rfl⟩
  · rintro ⟨rfl, hselector, rfl⟩
    exact ⟨_, ⟨rfl, hselector, rfl⟩, rfl⟩

@[simp] theorem selector_withReturnType (type : TypeId) (m : Method) :
    (withReturnType type m).selector = m.selector := by
  unfold withReturnType
  split <;> rfl

theorem withReturnType_of_returnType? (h : m.returnType? = some type) :
    withReturnType type m = m := by
  obtain ⟨selector, signature, flags⟩ := m
  unfold Method.returnType? at h
  cases signature with
  | nil => cases h
  | cons id params => cases h; rfl

theorem withReturnType_eq_or (type : TypeId) (m : Method) :
    withReturnType type m = m ∨ (withReturnType type m).returnType? = some type := by
  unfold withReturnType
  split
  · exact .inl rfl
  · exact .inr rfl

/-- An override replaces class methods with its selector. -/
theorem changed_override {rules : List ExceptionRule} {interface : QualifiedName}
    {selector : String} (hrule : .overrideReturn interface selector type ∈ rules)
    {d : Declaration} {i : Interface} (hkey : d.key = ⟨.interface, interface⟩)
    (hbody : d.body = .interface i) :
    d.Changed (change rules) { d with
      body := .interface { i with
        members := i.members.modifyClassMethod selector (withReturnType type) } } := by
  refine .interface hbody rfl (fun _ h => h) (fun _ h => .inl h) ?_ ?_
  · intro x hx
    rcases Members.mem_entries_modifyClassMethod selector (withReturnType type) hx with
      hx | ⟨m, rfl, rfl, hchanged⟩
    · exact .inl hx
    by_cases hreturn : m.returnType? = some type
    · rw [withReturnType_of_returnType? hreturn] at hchanged
      exact .inl hchanged
    · exact .inr ⟨m, type, rfl, ⟨interface, hrule, hkey⟩, hreturn⟩
  · intro x hx
    rcases Members.exists_of_mem_entries_modifyClassMethod hx with hx | ⟨m, rfl, rfl, hm⟩
    · exact .inl hx
    rcases withReturnType_eq_or type m with hsame | hreturn
    · rw [hsame]
      exact .inl hm
    · refine .inr ⟨_, type, rfl, ⟨interface, ?_, hkey⟩, hreturn⟩
      rw [selector_withReturnType]
      exact hrule

theorem changed_dropCategory {c : Change} (category interface : QualifiedName) (d : Declaration) :
    d.Changed c (dropCategory category interface d) := by
  unfold dropCategory
  cases hbody : d.body with
  | interface i =>
    simp only
    split
    · exact .interface hbody rfl (fun _ h => h) (fun _ h => .inl h) (fun _ h => .inl h)
        (fun _ h => .inl h)
    · exact .refl d
  | _ => exact .refl d

/-- **Corrections** lose nothing but what they replace. -/
theorem changes_applyAll (rules : List ExceptionRule) (m : Module) :
    Revision (Changed (change rules)) allStay m.declarations (applyAll rules m).declarations := by
  refine Revision.foldl Module.declarations (fun m rule hrule => ?_) m
  cases rule with
  | removeCategory category interface =>
    refine (Revision.filter fun d _ hkind => ?_).trans
      (.map fun d _ => changed_dropCategory category interface d)
    simp [isCategoryOn, category?_eq_none hkind]
  | overrideReturn interface selector type =>
    exact .modifyInterface fun d _ i hkey hbody => changed_override hrule hkey hbody

end ExceptionRule

/-! ### Removals -/

namespace Removal

open Declaration

variable {names : List QualifiedName} {resolve : Resolver} {ds : List Declaration}
  {d d' : Declaration}

/-- Links to removed names go, and interfaces get the bases that replace removed ones. -/
def change (names : List QualifiedName) (resolve : Resolver) (ds : List Declaration) : Change where
  unlinks p := p.name ∈ names
  links key p := ∃ d ∈ ds, d.key = key ∧ ∃ base ∈ names, d.base? = some base ∧
    ∃ last, survivingBase names resolve base = some last ∧ p = ⟨.interface, last⟩

/-- Neither the name of a declaration nor that of a parent is among the names. -/
def Clear (names : List QualifiedName) (d : Declaration) : Prop :=
  d.name ∉ names ∧ ∀ p ∈ d.parents, p.name ∉ names

/-- **What stays in a removal** keeps its members and all links but those to removed names. -/
theorem changed_rewrite (hkeys : (ds.map key).Nodup) (hd : d ∈ ds)
    (h : rewrite names (removedCategories names ds) (newBases names resolve ds) d = some d') :
    d.Changed (change names resolve ds) d' ∧ Clear names d' := by
  obtain ⟨hname, hamended⟩ :
      d.name ∉ names ∧ Amended (survivingBase names resolve) [] d d' := amended_rewrite hkeys hd h
  have hretained := of_rewrite h
  have hbase := hamended.base
  have hprotocols := hretained.protocols
  constructor
  · refine .of_parts hamended.key hretained.extended ?_ ?_ ?_ ?_ ?_ ?_
    · intro base hd'
      by_cases hnames : base ∈ names
      · exact .inr hnames
      · left
        rw [hbase, hd', Option.bind_some, survivingBase_of_not_mem hnames]
    · intro last hlast
      rw [hbase] at hlast
      obtain ⟨base, hbase', hsurviving⟩ := Option.bind_eq_some_iff.mp hlast
      by_cases hnames : base ∈ names
      · exact .inr ⟨d, hd, rfl, base, hnames, hbase', last, hsurviving, rfl⟩
      · rw [survivingBase_of_not_mem hnames, Option.some.injEq] at hsurviving
        exact .inl (hsurviving ▸ hbase')
    · intro name hmem
      by_cases hnames : name ∈ names
      · exact .inr hnames
      · rw [hprotocols]
        exact .inl (List.mem_filter.mpr ⟨hmem, by simpa using hnames⟩)
    · intro name hmem
      rw [hprotocols] at hmem
      exact .inl (List.mem_filter.mp hmem).1
    · exact fun x hx => .inl (by rwa [entries, hretained.members])
    · exact fun x hx => .inl (by rwa [entries, ← hretained.members])
  · refine ⟨?_, ?_⟩
    · have hname' : d'.name = d.name := congrArg DeclKey.name hamended.key
      rwa [hname']
    · intro p hp
      rcases mem_parents.mp hp with ⟨last, hlast, rfl⟩ | ⟨name, hmem, rfl⟩
      · rw [hbase] at hlast
        obtain ⟨base, -, hsurviving⟩ := Option.bind_eq_some_iff.mp hlast
        exact (survivingBase_eq_some_iff.mp hsurviving).1
      · rw [hprotocols] at hmem
        simpa using (List.mem_filter.mp hmem).2

/-- **A removal** loses nothing but what has a removed name, and names none of them any more. -/
theorem changes_declarationsAfter (names : List QualifiedName) (resolve : Resolver)
    (hkeys : (ds.map key).Nodup) :
    Revision (Changed (change names resolve ds)) (fun key => key.name ∉ names) ds
        (declarationsAfter names resolve ds) ∧
      ∀ d ∈ declarationsAfter names resolve ds, Clear names d := by
  rw [declarationsAfter_eq]
  constructor
  · refine Revision.filterMap (fun d hd d' hrewrite => ?_) fun d _ hname hkind =>
      exists_rewrite hname hkind
    obtain ⟨hchanged, -⟩ := changed_rewrite hkeys hd hrewrite
    exact ⟨hchanged, hchanged.key⟩
  · intro d' hd'
    obtain ⟨d, hd, hrewrite⟩ := List.mem_filterMap.mp hd'
    exact (changed_rewrite hkeys hd hrewrite).2

end Removal

/-! ### Support -/

namespace Unsupported

open Declaration Analyzer

variable {a after : Analyzer} {d d' : Declaration} {ds kept : List Declaration}

/-- Members go that are not supported. -/
def change (g : Graph) : Change where
  loses _ x := ¬ x.Meets g.Admits

/-- A selection keeps only members that there were, and all that are supported. -/
theorem entries_of_selectMembers {ms chosen : Members}
    (h : a.selectMembers ms = .ok (chosen, after)) (hrest : a.Resting) :
    (∀ x ∈ chosen.entries, x ∈ ms.entries) ∧
      ∀ x ∈ ms.entries, x.Meets a.graph.Admits → x ∈ chosen.entries := by
  obtain ⟨b, c, hinstance, hclass, hproperties⟩ := selectMembers_ok h
  have hi := replies_judgeMethod.selection hinstance hrest
  have hc := replies_judgeMethod.selection hclass hi.resting
  have hp := replies_judgeProperty.selection hproperties hc.resting
  constructor
  · rintro (m | m | p) hx
    · simpa using hi.sublist.subset (by simpa using hx)
    · simpa using hc.sublist.subset (by simpa using hx)
    · simpa using hp.sublist.subset (by simpa using hx)
  · rintro (m | m | p) hx hmeets
    · simpa using hi.admitted m (by simpa using hx) hmeets
    · simpa using hc.admitted m (by simpa using hx) (hi.graph ▸ hmeets)
    · simpa using hp.admitted p (by simpa using hx) (hc.graph ▸ hi.graph ▸ hmeets)

theorem changed_trim (h : trim a d = .ok (some d', after)) (hrest : a.Resting)
    (hfind : a.graph.lookup.find? d.key = some d ∨ (a.known? (.decl d.key)).isSome) :
    d.Changed (change a.graph) d' := by
  rcases trim_cases h with ⟨-, hnone⟩ | ⟨-, -, hsame⟩ |
    ⟨next, members, chosen, hjudge, hmembers, hselect, hsame⟩
  · cases hnone
  · cases hsame
    exact .refl d
  · cases hsame
    have hjudged := judgeDecl_judged hjudge hrest hfind
    obtain ⟨hfrom, hkept⟩ := entries_of_selectMembers hselect hjudged.resting
    rw [hjudged.graph] at hkept
    refine .withMembers hmembers (fun x hx => ?_) fun x hx => .inl (hfrom x hx)
    by_cases hmeets : x.Meets a.graph.Admits
    · exact .inl (hkept x hx hmeets)
    · exact .inr hmeets

/-- **A pass over declarations** loses nothing that is supported. -/
theorem changes_trimAll (h : trimAll a ds = .ok (kept, after)) (hrest : a.Resting)
    (hresolves : Resolves a ds) :
    Revision (Changed (change a.graph)) (fun key => ¬ a.graph.Unsupported (.decl key)) ds kept := by
  induction ds generalizing a kept with
  | nil =>
    simp only [trimAll, Except.ok.injEq, Prod.mk.injEq] at h
    obtain ⟨rfl, rfl⟩ := h
    exact .refl []
  | cons d rest ih =>
    have hkeys := (trimAll_trimming h hrest hresolves).keys
    obtain ⟨kept?, next, others, htrim, hothers, rfl⟩ := trimAll_cons_ok h
    have hd := trim_result htrim hrest hresolves.head
    have hrest' := ih hothers hd.resting (hresolves.tail hd)
    rw [hd.graph] at hrest'
    refine ⟨?_, ?_, hkeys⟩
    · intro d' hd'
      rcases List.mem_append.mp hd' with hd' | hd'
      · obtain rfl := Option.mem_toList.mp hd'
        exact ⟨d, List.mem_cons_self, changed_trim htrim hrest hresolves.head⟩
      · obtain ⟨e, he, hchanged⟩ := hrest'.source d' hd'
        exact ⟨e, List.mem_cons_of_mem d he, hchanged⟩
    · intro e he hsupported hkind
      rcases List.mem_cons.mp he with rfl | he
      · cases kept? with
        | none =>
          have hunsupported := hd.resting.unsupported hd.known
          rw [hd.graph] at hunsupported
          exact absurd hunsupported hsupported
        | some d' =>
          exact ⟨d', List.mem_append_left _ (Option.mem_toList.mpr rfl),
            changed_trim htrim hrest hresolves.head⟩
      · obtain ⟨d', hd', hchanged⟩ := hrest'.result e he hsupported hkind
        exact ⟨d', List.mem_append_right _ hd', hchanged⟩

end Unsupported

/-! ### Categories -/

namespace Categories

open Declaration

/-- Interfaces take over the protocols and members of categories. -/
def change (ds : List Declaration) : Change where
  links key p := ∃ c ∈ ds, c.Extends key ∧ p ∈ c.parents
  gains key x := ∃ c ∈ ds, c.Extends key ∧ x ∈ c.entries

theorem changes_mergeInto {ds : List Declaration} {d : Declaration} (hd : d ∈ ds)
    (before : List Declaration) :
    Revision (Changed (change ds)) allStay before (mergeInto before d) := by
  unfold mergeInto
  cases hcategory : d.category? with
  | none => exact .refl before
  | some c =>
    refine .modifyInterface ?_
    intro e _ i hkey hbody
    have hextends : d.Extends e.key := ⟨c.extended, by simp [extended?, hcategory], hkey⟩
    have hbody' : d.body = .category c := category?_eq_some_iff.mp hcategory
    have hprotocols : d.protocols = c.protocols := by simp [protocols, hbody']
    have hentries : d.entries = c.members.entries := by simp [entries, members?, hbody']
    refine .interface hbody rfl (fun name hname => ?_) (fun name hname => ?_)
      (fun x hx => .inl (Members.mem_entries_append.mpr (.inl hx))) fun x hx => ?_
    · exact mem_appendNew.mpr (.inl hname)
    · refine (mem_appendNew.mp hname).imp_right fun hname => ⟨d, hd, hextends, ?_⟩
      exact mem_parents.mpr (.inr ⟨name, hprotocols ▸ hname, rfl⟩)
    · refine (Members.mem_entries_append.mp hx).imp_right fun hx => ⟨d, hd, hextends, ?_⟩
      exact hentries ▸ hx

/-- **Merging** loses nothing. -/
theorem changes_apply (external : Resolver) (m : Module) :
    Revision (Changed (change m.declarations)) allStay m.declarations
      (apply external m).declarations := by
  have hmerged : Revision (Changed (change m.declarations)) allStay m.declarations
      (m.declarations.foldl mergeInto m.declarations) :=
    Revision.foldl id (fun ds d hd => changes_mergeInto hd ds) m.declarations
  refine hmerged.trans (.filter fun d _ hkind => ?_)
  simp [isAbsorbed, category?_eq_none hkind]

end Categories

/-! ### Inherited members -/

namespace Inherited

open Declaration

variable {lookup : Lookup} {d : Declaration} {x : Member}

@[simp] theorem key_drop (lookup : Lookup) (d : Declaration) : (drop lookup d).key = d.key := by
  unfold drop
  split <;> simp

@[simp] theorem parents_drop (lookup : Lookup) (d : Declaration) :
    (drop lookup d).parents = d.parents := by
  unfold drop
  split <;> simp

theorem drop_of_category (hkind : d.kind = .category) : drop lookup d = d := by
  unfold kind at hkind
  unfold drop
  cases hbody : d.body <;> simp_all

theorem forall_members_iff :
    (∀ source ∈ members lookup d, ∀ y ∈ source.entries, x.sameAs y = false) ↔
      ∀ e ∈ lookup.reached parents d, ¬ e.Provides x := by
  unfold members Provides
  simp only [List.mem_filterMap, not_exists, not_and, Bool.not_eq_true]
  constructor
  · intro h e he y hy
    obtain ⟨ms, hms, hy⟩ := exists_of_mem_entries hy
    exact h ms ⟨e, he, hms⟩ y hy
  · rintro h ms ⟨e, he, hms⟩ y hy
    exact h e he y (entries_of_members? hms ▸ hy)

/-- **A member of an interface or protocol stays** exactly if nothing that is inherited from
provides it. -/
theorem mem_entries_drop (hkind : d.kind ≠ .category) :
    x ∈ (drop lookup d).entries ↔
      x ∈ d.entries ∧ ∀ e ∈ lookup.reached parents d, ¬ e.Provides x := by
  rw [← forall_members_iff]
  unfold drop
  cases hbody : d.body with
  | interface i =>
    have hmembers : d.members? = some i.members := by simp [members?, hbody]
    simp only [entries_withMembers hmembers, entries_of_members? hmembers, mem_entries_without]
  | protocol p =>
    have hmembers : d.members? = some p.members := by simp [members?, hbody]
    simp only [entries_withMembers hmembers, entries_of_members? hmembers, mem_entries_without]
  | category c => exact absurd (by simp [kind, hbody]) hkind
  | _ => simp [entries, members?, hbody]

/-- **What a declaration has it keeps or inherits.** -/
theorem mem_drop_or_reached (hx : x ∈ d.entries) :
    x ∈ (drop lookup d).entries ∨ ∃ e ∈ lookup.reached parents d, e.Provides x := by
  by_cases hkind : d.kind = .category
  · rw [drop_of_category hkind]
    exact .inl hx
  · rw [mem_entries_drop hkind]
    by_cases hinherited : ∃ e ∈ lookup.reached parents d, e.Provides x
    · exact .inr hinherited
    · exact .inl ⟨hx, fun e he hprovides => hinherited ⟨e, he, hprovides⟩⟩

theorem mem_of_mem_drop (hx : x ∈ (drop lookup d).entries) : x ∈ d.entries := by
  by_cases hkind : d.kind = .category
  · rwa [drop_of_category hkind] at hx
  · exact ((mem_entries_drop hkind).mp hx).1

end Inherited

end ObjcMetadata
