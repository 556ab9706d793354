import ObjcMetadata.Proofs.Batch.Process
import ObjcMetadata.Proofs.Batch.Snapshot
/-!
How the modules of a batch see each other.

Each module judges support in its own view: it sees its own declarations as corrections and removals
have left them, and those of the other modules as they were given (`find?_view_source`,
`find?_view_own`, `find?_view_other`). So two modules may disagree about bases: where a base is
removed, the module of the interface sees the surviving base, and the others see the chain that
leads there. Nevertheless, what one module sees as supported is supported for its own module too,
unless references lead there to a name to be removed that does not resolve (`loses_of_unsupported`).
-/

namespace ObjcMetadata.Batch

open Relation Support Declaration

/-! ### Views -/

/-- The context in which a module of a batch is processed. -/
def context (pool : Pool) (modules : List Module) (owner : Nat) : Context :=
  ⟨pool, (Snapshot.ofModules modules).excluding owner⟩

/-- The graph in which a module of a batch is judged. -/
def view (o : Options) (pool : Pool) (modules : List Module) (owner : Nat) (m : Module) : Graph :=
  Unsupported.view (context pool modules owner) (o.corrected (context pool modules owner) m)

/-- How a removed base is replaced in a module of a batch. -/
def rebase (o : Options) (pool : Pool) (modules : List Module) (owner : Nat) (m : Module) :
    QualifiedName → Option QualifiedName :=
  o.rebase (context pool modules owner) m

variable {o : Options} {pool : Pool} {modules : List Module} {i j : Nat} {m m' : Module}
  {d e : Declaration} {key : DeclKey}

theorem find?_view (o : Options) (pool : Pool) (modules : List Module) (i : Nat) (m : Module)
    (key : DeclKey) :
    (view o pool modules i m).lookup.find? key =
      ((o.corrected (context pool modules i) m).declarations.find? (·.key == key)).or
        ((Snapshot.ofModules modules).findExcluding? i key) :=
  Unsupported.find?_view _ _ key

/-- What a module sees is one of its own declarations, amended, or one of another module. -/
theorem find?_view_source (hkeys : DistinctKeys modules) (hm : modules[i]? = some m)
    (h : (view o pool modules i m).lookup.find? key = some e) :
    ∃ l d, Declares modules l d ∧ d.key = key ∧
      ((l ≠ i ∧ e = d) ∨
        (l = i ∧ key.name ∉ o.remove ∧
          Amended (rebase o pool modules i m) [.instancetype] d e)) := by
  rw [find?_view, Option.or_eq_some_iff] at h
  have hnodup := hkeys.nodup (List.mem_of_getElem? hm)
  rcases h with hown | ⟨-, hother⟩
  · obtain ⟨d, hd, rfl, hname, hamended⟩ :=
      (Options.revision_corrected hnodup).find?_source (fun _ _ h => h.key) hown
    exact ⟨i, d, ⟨m, hm, hd⟩, rfl, .inr ⟨rfl, hname, hamended⟩⟩
  · obtain ⟨l, hne, hd, hkey⟩ := (findExcluding?_eq_some_iff hkeys).mp hother
    exact ⟨l, e, hd, hkey, .inl ⟨hne, rfl⟩⟩

/-- A module sees the declarations of other modules as they were given. -/
theorem find?_view_other (hkeys : DistinctKeys modules) (hm : modules[i]? = some m)
    (hd : Declares modules j d) (hne : j ≠ i) :
    (view o pool modules i m).lookup.find? d.key = some d := by
  rw [find?_view, (findExcluding?_eq_some_iff hkeys).mpr ⟨j, hne, hd, rfl⟩]
  have hnodup := hkeys.nodup (List.mem_of_getElem? hm)
  cases hown : (o.corrected (context pool modules i) m).declarations.find? (·.key == d.key) with
  | none => rfl
  | some e =>
    obtain ⟨d', hd', hkey, -⟩ :=
      (Options.revision_corrected hnodup).find?_source (fun _ _ h => h.key) hown
    exact absurd (hkeys.unique hd ⟨m, hm, hd'⟩ hkey.symm).1 hne

/-- A module sees those of its own declarations that are not to be removed, amended. -/
theorem find?_view_own (hkeys : DistinctKeys modules) (hm : modules[i]? = some m)
    (hd : d ∈ m.declarations) (hname : d.name ∉ o.remove) (hkind : d.kind ≠ .category) :
    ∃ e, (o.corrected (context pool modules i) m).declarations.find? (·.key == d.key) = some e ∧
      (view o pool modules i m).lookup.find? d.key = some e ∧
      Amended (rebase o pool modules i m) [.instancetype] d e := by
  have hnodup := hkeys.nodup (List.mem_of_getElem? hm)
  obtain ⟨e, hfind, -, hamended⟩ :=
    (Options.revision_corrected hnodup).find?_result (fun _ _ h => h.key) hnodup hd hname hkind
  refine ⟨e, hfind, ?_, hamended⟩
  rw [find?_view, hfind]
  rfl

/-! ### Bases -/

/-- A name to be removed is that of an interface with this base, somewhere in the batch. -/
def Climbs (o : Options) (modules : List Module) (current base : QualifiedName) : Prop :=
  current ∈ o.remove ∧
    ∃ l d, Declares modules l d ∧ d.key = ⟨.interface, current⟩ ∧ d.base? = some base

/-- All modules follow the same bases. -/
theorem climbs_iff (hkeys : DistinctKeys modules) (hm : modules[i]? = some m)
    {current base : QualifiedName} :
    Removal.Climbs o.remove
        ((ExceptionRule.applyAll ExceptionRule.iosSdk m).index.resolveOr
          (context pool modules i).external.find?) current base ↔
      Climbs o modules current base := by
  have hnodup := hkeys.nodup (List.mem_of_getElem? hm)
  have hrules := revision_iosSdk m
  unfold Removal.Climbs Climbs DeclTable.resolveOr Module.index context
  refine and_congr_right ?_
  intro _
  rw [DeclTable.get?_ofList]
  constructor
  · intro h
    obtain ⟨e, hresolve, hbase⟩ := Option.bind_eq_some_iff.mp h
    rcases Option.or_eq_some_iff.mp hresolve with hown | ⟨-, hother⟩
    · obtain ⟨d, hd, hkey, hamended⟩ := hrules.find?_source (fun _ _ h => h.key) hown
      rw [hamended.base, Option.bind_fun_some] at hbase
      exact ⟨i, d, ⟨m, hm, hd⟩, hkey, hbase⟩
    · obtain ⟨l, -, hd, hkey⟩ := (findExcluding?_eq_some_iff hkeys).mp hother
      exact ⟨l, e, hd, hkey, hbase⟩
  · rintro ⟨l, d, hd, hkey, hbase⟩
    refine Option.bind_eq_some_iff.mpr ?_
    by_cases hl : l = i
    · subst hl
      obtain ⟨m', hm', hmem⟩ := hd
      obtain rfl : m' = m := Option.some.inj (hm'.symm.trans hm)
      obtain ⟨e, hfind, hamended⟩ := hrules.find?_result (fun _ _ h => h.key) hnodup hmem trivial
        (by rw [kind_of_base? hbase]; decide)
      rw [hkey] at hfind
      exact ⟨e, by rw [hfind]; rfl, by rw [hamended.base, hbase]; rfl⟩
    · refine ⟨d, ?_, hbase⟩
      have hother : (Snapshot.ofModules modules).findExcluding? i ⟨.interface, current⟩ = some d :=
        (findExcluding?_eq_some_iff hkeys).mpr ⟨l, hl, hd, hkey⟩
      cases hown : (ExceptionRule.applyAll ExceptionRule.iosSdk m).declarations.find?
          (·.key == ⟨.interface, current⟩) with
      | none => exact hother
      | some e =>
        obtain ⟨d', hd', hkey', -⟩ := hrules.find?_source (fun _ _ h => h.key) hown
        exact absurd (hkeys.unique hd ⟨m, hm, hd'⟩ (hkey.trans hkey'.symm)).1 hl

/-- **The base that replaces a removed one** is the first on the chain of bases that stays. -/
theorem rebase_eq_some_iff (hkeys : DistinctKeys modules) (hm : modules[i]? = some m)
    {start base : QualifiedName} :
    rebase o pool modules i m start = some base ↔
      base ∉ o.remove ∧ ReflTransGen (Climbs o modules) start base := by
  have hclimbs : Removal.Climbs o.remove
      ((ExceptionRule.applyAll ExceptionRule.iosSdk m).index.resolveOr
        (context pool modules i).external.find?) = Climbs o modules := by
    funext current base
    exact propext (climbs_iff hkeys hm)
  unfold rebase Options.rebase
  rw [Removal.survivingBase_eq_some_iff, hclimbs]

theorem rebase_of_not_mem (hkeys : DistinctKeys modules) (hm : modules[i]? = some m)
    {base : QualifiedName} (h : base ∉ o.remove) : rebase o pool modules i m base = some base :=
  (rebase_eq_some_iff hkeys hm).mpr ⟨h, .refl⟩

/-! ### One module's view followed in another's -/

/-- Keys that are referred to are not those of categories. -/
theorem kind_of_refers {g : Graph} {a : Node} (h : g.Refers a (.decl key)) :
    key.kind ≠ .category := by
  cases h <;> simp

theorem kind_of_leads {g : Graph} {start : DeclKey} (hstart : start.kind ≠ .category)
    (h : ReflTransGen g.Refers (.decl start) (.decl key)) : key.kind ≠ .category := by
  rcases ReflTransGen.cases_tail h with heq | ⟨a, -, hrefers⟩
  · cases heq
    exact hstart
  · exact kind_of_refers hrefers

/-- An interface refers to its base only. -/
theorem exists_base_of_mem_declDemand {next : Node} (hkind : d.kind = .interface)
    (h : next ∈ declDemand d) : ∃ base, d.base? = some base ∧ next = .decl ⟨.interface, base⟩ := by
  rw [declDemand_of_interface hkind] at h
  obtain ⟨base, hbase, rfl⟩ := List.mem_map.mp h
  exact ⟨base, Option.mem_toList.mp hbase, rfl⟩

/-- References lead from a node to a name to be removed that does not resolve. -/
def LosesFrom (g : Graph) (names : List QualifiedName) (node : Node) : Prop :=
  ∃ gone, ReflTransGen g.Refers node (.decl gone) ∧ gone.name ∈ names ∧ g.lookup.find? gone = none

/-- References lead from a key to a name to be removed that does not resolve. -/
def Loses (g : Graph) (names : List QualifiedName) (key : DeclKey) : Prop :=
  LosesFrom g names (.decl key)

section Follow

variable {start : DeclKey} {next : Node}

/-- Where a chain of references in another view may lead, as the module at `i` sees it: it leads
there too, or it leads to one of its own interfaces with a removed base, from which the chain
climbs. -/
inductive Followed (o : Options) (pool : Pool) (modules : List Module) (i : Nat) (m : Module)
    (start : DeclKey) : Node → Prop where
  | led {node : Node} :
      ReflTransGen (view o pool modules i m).Refers (.decl start) node →
      Followed o pool modules i m start node
  | climbing {key : DeclKey} {e : Declaration} {current : QualifiedName} :
      ReflTransGen (view o pool modules i m).Refers (.decl start) (.decl key) →
      (view o pool modules i m).lookup.find? key = some e →
      (∀ base, base ∉ o.remove → ReflTransGen (Climbs o modules) current base →
        e.base? = some base) →
      current ∈ o.remove →
      Followed o pool modules i m start (.decl ⟨.interface, current⟩)

/-- A name to be removed to which a supported key leads is that of an interface elsewhere. -/
theorem find?_view_of_removed (hkeys : DistinctKeys modules) (hm : modules[i]? = some m)
    {current : QualifiedName} (hcurrent : current ∈ o.remove)
    (h : (view o pool modules i m).lookup.find? ⟨.interface, current⟩ = some e) :
    ∃ l, Declares modules l e ∧ e.key = ⟨.interface, current⟩ := by
  obtain ⟨l, d, hd, hkey, ⟨-, rfl⟩ | ⟨-, hname, -⟩⟩ := find?_view_source hkeys hm h
  · exact ⟨l, hd, hkey⟩
  · exact absurd hcurrent hname

/-- A chain of bases through names to be removed is one of references, if it begins where a
supported key leads. -/
theorem leads_of_climbs (hkeys : DistinctKeys modules) (hm : modules[i]? = some m)
    (hsupported : ¬ (view o pool modules i m).Unsupported (.decl start))
    {current base : QualifiedName}
    (hleads : ReflTransGen (view o pool modules i m).Refers (.decl start)
      (.decl ⟨.interface, current⟩))
    (hclimbs : ReflTransGen (Climbs o modules) current base) :
    ReflTransGen (view o pool modules i m).Refers (.decl start) (.decl ⟨.interface, base⟩) := by
  induction hclimbs with
  | refl => exact hleads
  | tail _ hstep ih =>
    obtain ⟨hremoved, l, d, hd, hkey, hbase⟩ := hstep
    obtain ⟨e, hfind⟩ := Graph.resolves_of_leads hsupported ih
    obtain ⟨l', he, hkey'⟩ := find?_view_of_removed hkeys hm hremoved hfind
    obtain ⟨-, rfl⟩ := hkeys.unique hd he (hkey.trans hkey'.symm)
    exact ih.tail (.base hfind hbase)

/-- What a declaration needs as it was given is followed from where references lead to it. -/
theorem Followed.declared (hkeys : DistinctKeys modules) (hm : modules[i]? = some m)
    (hsupported : ¬ (view o pool modules i m).Unsupported (.decl start))
    (hleads : ReflTransGen (view o pool modules i m).Refers (.decl start) (.decl d.key))
    (hd : Declares modules j d) (hnext : next ∈ declDemand d) :
    Followed o pool modules i m start next := by
  obtain ⟨e, hfind⟩ := Graph.resolves_of_leads hsupported hleads
  obtain ⟨l, d', hd', hkey, hsource⟩ := find?_view_source hkeys hm hfind
  obtain ⟨-, rfl⟩ := hkeys.unique hd hd' hkey.symm
  rcases hsource with ⟨-, rfl⟩ | ⟨-, -, hamended⟩
  · exact .led (hleads.tail (Graph.refers_decl_iff.mpr ⟨e, hfind, hnext⟩))
  by_cases hkind : d.kind = .interface
  · obtain ⟨base, hbase, rfl⟩ := exists_base_of_mem_declDemand hkind hnext
    have hrebase : e.base? = rebase o pool modules i m base := by
      rw [hamended.base, hbase, Option.bind_some]
    by_cases hremoved : base ∈ o.remove
    · refine .climbing hleads hfind (fun last hlast hclimbs => ?_) hremoved
      rw [hrebase]
      exact (rebase_eq_some_iff hkeys hm).mpr ⟨hlast, hclimbs⟩
    · rw [rebase_of_not_mem hkeys hm hremoved] at hrebase
      exact .led (hleads.tail (.base hfind hrebase))
  · rw [← hamended.needs hkind] at hnext
    exact .led (hleads.tail (Graph.refers_decl_iff.mpr ⟨e, hfind, hnext⟩))

/-- What another module sees as the needs of a declaration of its own is followed, by the chain of
bases if its base has been replaced. -/
theorem Followed.amended (hkeys : DistinctKeys modules) (hm : modules[i]? = some m)
    (hm' : modules[j]? = some m') (hne : j ≠ i)
    (hsupported : ¬ (view o pool modules i m).Unsupported (.decl start))
    (hleads : ReflTransGen (view o pool modules i m).Refers (.decl start) (.decl d.key))
    (hd : Declares modules j d)
    (hamended : Amended (rebase o pool modules j m') [.instancetype] d e)
    (hnext : next ∈ declDemand e) : Followed o pool modules i m start next := by
  have hfind : (view o pool modules i m).lookup.find? d.key = some d :=
    find?_view_other hkeys hm hd hne
  by_cases hkind : d.kind = .interface
  · obtain ⟨last, hlast, rfl⟩ :=
      exists_base_of_mem_declDemand (hamended.kind_eq.trans hkind) hnext
    rw [hamended.base] at hlast
    obtain ⟨base, hbase, hrebase⟩ := Option.bind_eq_some_iff.mp hlast
    obtain ⟨-, hclimbs⟩ := (rebase_eq_some_iff hkeys hm').mp hrebase
    exact .led (leads_of_climbs hkeys hm hsupported (hleads.tail (.base hfind hbase)) hclimbs)
  · rw [hamended.needs hkind] at hnext
    exact .led (hleads.tail (Graph.refers_decl_iff.mpr ⟨d, hfind, hnext⟩))

/-- **Every reference in another view is followed.** -/
theorem Followed.step (hkeys : DistinctKeys modules) (hm : modules[i]? = some m)
    (hm' : modules[j]? = some m') (hne : j ≠ i)
    (hsupported : ¬ (view o pool modules i m).Unsupported (.decl start)) {node : Node}
    (h : Followed o pool modules i m start node)
    (hrefers : (view o pool modules j m').Refers node next) :
    Followed o pool modules i m start next := by
  cases h with
  | @led node hleads =>
    cases node with
    | type id =>
      have hsame : (view o pool modules i m).Refers (.type id) next := by
        rw [Graph.refers_type_iff] at hrefers ⊢
        exact hrefers
      exact .led (hleads.tail hsame)
    | decl key =>
      obtain ⟨e, hfind, hnext⟩ := Graph.refers_decl_iff.mp hrefers
      obtain ⟨l, d, hd, rfl, ⟨-, rfl⟩ | ⟨rfl, -, hamended⟩⟩ := find?_view_source hkeys hm' hfind
      · exact .declared hkeys hm hsupported hleads hd hnext
      · exact .amended hkeys hm hm' hne hsupported hleads hd hamended hnext
  | @climbing key e current hleads hfind hbases hremoved =>
    obtain ⟨x, hfind', hnext⟩ := Graph.refers_decl_iff.mp hrefers
    obtain ⟨l, hx, hkey⟩ := find?_view_of_removed hkeys hm' hremoved hfind'
    obtain ⟨base, hbase, rfl⟩ :=
      exists_base_of_mem_declDemand (congrArg DeclKey.kind hkey) hnext
    have hclimbs : Climbs o modules current base := ⟨hremoved, l, x, hx, hkey, hbase⟩
    by_cases hbase' : base ∈ o.remove
    · exact .climbing hleads hfind (fun last hlast hrest => hbases last hlast (hrest.head hclimbs))
        hbase'
    · exact .led (hleads.tail (.base hfind (hbases base hbase' (.single hclimbs))))

/-- **What one module sees as supported is supported for the module that declares it**, unless
references lead there to a name to be removed that does not resolve. -/
theorem loses_of_unsupported (hkeys : DistinctKeys modules) (hm : modules[i]? = some m)
    (hm' : modules[j]? = some m') (hne : j ≠ i) (hkind : start.kind ≠ .category)
    (hsupported : ¬ (view o pool modules i m).Unsupported (.decl start))
    (hunsupported : (view o pool modules j m').Unsupported (.decl start)) :
    Loses (view o pool modules j m') o.remove start := by
  obtain ⟨last, hleads, hlacks⟩ := hunsupported
  have hfollowed : Followed o pool modules i m start last := by
    clear hlacks
    induction hleads with
    | refl => exact .led .refl
    | tail _ hrefers ih => exact ih.step hkeys hm hm' hne hsupported hrefers
  cases hfollowed with
  | @led last hleads' =>
    cases hlacks with
    | primitive hnode hprimitive =>
      exact absurd ⟨_, hleads', .primitive hnode hprimitive⟩ hsupported
    | @unresolved key hnone =>
      obtain ⟨e, hfind⟩ := Graph.resolves_of_leads hsupported hleads'
      obtain ⟨l, d, hd, rfl, -⟩ := find?_view_source hkeys hm hfind
      by_cases hl : l = j
      · subst hl
        refine ⟨d.key, hleads, ?_, hnone⟩
        by_contra hname
        obtain ⟨m'', hm'', hmem⟩ := hd
        obtain rfl : m'' = m' := Option.some.inj (hm''.symm.trans hm')
        obtain ⟨e', -, hfind', -⟩ :=
          find?_view_own hkeys hm' hmem hname (kind_of_leads hkind hleads)
        rw [hnone] at hfind'
        cases hfind'
      · rw [find?_view_other hkeys hm' hd hl] at hnone
        cases hnone
  | @climbing key e current _ _ _ hremoved =>
    cases hlacks with
    | unresolved hnone => exact ⟨_, hleads, hremoved, hnone⟩

end Follow

end ObjcMetadata.Batch
