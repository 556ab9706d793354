import ObjcMetadata.Proofs.Batch.Ancestry
/-!
Whether what is dropped as inherited is provided.

A module drops a member of an interface or protocol if something that it sees above has the same
member. What it sees of other modules is as given, and these may make something else of it: they
remove it, they drop what it is seen through, or the member is unsupported or corrected
(`Retracts`). Whatever is seen above and not retracted is there in the results
(`traced_or_vain`), where it has the member or has dropped it in turn. So an ancestor in the results
provides each member that has been dropped (`processModules_provides`), unless all that is seen
above with the member is retracted or has lost the member in this same way (`ReliesInVain`). Then
it may be lost (`processModules_retracted_lost`).
-/

namespace ObjcMetadata.Batch

open Relation Support Declaration

variable {o : Options} {pool : Pool} {modules : List Module} {results : List FinalModule}
  {i j : Nat} {m m' ready : Module} {d e f : Declaration} {x : Member} {a b : DeclKey}

/-! ### What other modules see in vain -/

/-- What a removal takes away above a declaration: the protocols with removed names that it adopts,
and the removed interfaces on its chain of bases. -/
inductive Skips (o : Options) (modules : List Module) (e : Declaration) : DeclKey → Prop where
  | protocol {name : QualifiedName} : name ∈ e.protocols → name ∈ o.remove →
      Skips o modules e ⟨.protocol, name⟩
  | base {start last : QualifiedName} : e.base? = some start →
      ReflTransGen (Climbs o modules) start last → last ∈ o.remove →
      Skips o modules e ⟨.interface, last⟩

theorem Skips.mem (h : Skips o modules e b) : b.name ∈ o.remove := by
  cases h with
  | protocol _ hremoved => exact hremoved
  | base _ _ hremoved => exact hremoved

/-- The module at `j` keeps back what the module at `i` sees through a declaration of it as given:
it removes that, it drops the declaration because that leads to a name to be removed, or the member
of the declaration itself is unsupported or corrected. A method that others see as supported is
unsupported only if its types lead to a name to be removed. -/
inductive Retracts (o : Options) (pool : Pool) (modules : List Module) (i j : Nat) (e : Declaration)
    (x : Member) : Declaration → Prop where
  | removed {p : DeclKey} {f : Declaration} : Skips o modules e p →
      ReflTransGen (Adopts modules) p f.key → Retracts o pool modules i j e x f
  | dropped {m : Module} {f : Declaration} : o.keepUnsupported = false → modules[j]? = some m →
      Loses (view o pool modules j m) o.remove e.key →
      ReflTransGen (Ascends o pool modules i) e.key f.key → Retracts o pool modules i j e x f
  | unsupported {m : Module} {y : Member} : o.keepUnsupported = false → modules[j]? = some m →
      y ∈ e.entries → x.sameAs y = true → ¬ y.Meets (view o pool modules j m).Admits →
      (y.IsProperty ∨ ∃ id ∈ y.types, LosesFrom (view o pool modules j m) o.remove (.type id)) →
      Retracts o pool modules i j e x e
  | corrected {null : Method} : e.key = ⟨.interface, ⟨"Foundation", "NSNull"⟩⟩ →
      .classMethod null ∈ e.entries → null.selector = "null" →
      null.returnType? ≠ some .instancetype → x.sameAs (.classMethod null) = true →
      Retracts o pool modules i j e x e

/-- What a module sees above a key with the member is seen at or through a declaration of another
module, which keeps it back. -/
def SeesInVain (o : Options) (pool : Pool) (modules : List Module) (i : Nat) (key : DeclKey)
    (x : Member) (f : Declaration) : Prop :=
  ∃ j e, TransGen (Ascends o pool modules i) key e.key ∧ Declares modules j e ∧ j ≠ i ∧
    e.name ∉ o.remove ∧ Retracts o pool modules i j e x f

/-- A module sees something above a key that has the member. -/
structure SeesAbove (o : Options) (pool : Pool) (modules : List Module) (i : Nat) (key : DeclKey)
    (x : Member) (f : Declaration) : Prop where
  sees : Sees o pool modules i f
  ne : f.key ≠ key
  leads : TransGen (Ascends o pool modules i) key f.key
  provides : f.Provides x

/-- What is seen above a key with the member is above it in the results too, and it is ready with
the member. -/
structure ReadiesAbove (o : Options) (pool : Pool) (modules : List Module)
    (results : List FinalModule) (key : DeclKey) (x : Member) (f : Declaration) (j : Nat)
    (e : Declaration) : Prop where
  readies : Readies o pool modules j e
  same : e.key = f.key
  leads : TransGen (Derives results) key e.key
  provides : e.Provides x

/-- What is ready has the member and sees it above, but all in vain: what it sees with the member is
retracted or itself relies on others in vain. -/
inductive ReliesInVain (o : Options) (pool : Pool) (modules : List Module)
    (results : List FinalModule) (x : Member) : Nat → Declaration → Prop where
  | intro {i : Nat} {d f : Declaration} : Readies o pool modules i d → d.Provides x →
      SeesAbove o pool modules i d.key x f →
      (∀ g, SeesAbove o pool modules i d.key x g → SeesInVain o pool modules i d.key x g ∨
        ∃ j e, ReadiesAbove o pool modules results d.key x g j e) →
      (∀ g j e, SeesAbove o pool modules i d.key x g →
        ReadiesAbove o pool modules results d.key x g j e →
        ReliesInVain o pool modules results x j e) →
      ReliesInVain o pool modules results x i d

/-! ### What is ready -/

namespace Readies

/-- What stays of what a module declares is ready. -/
theorem of_stays (hkeys : DistinctKeys modules)
    (hresults : processModules o pool modules = .ok (results.map .ok)) (hm : modules[j]? = some m)
    (hd : d ∈ m.declarations) (hkind : d.kind = .interface ∨ d.kind = .protocol)
    (hstays : o.Stays (context pool modules j) m d.key) :
    ∃ e, Readies o pool modules j e ∧ d.Changed (o.change (context pool modules j) m) e := by
  have hcategory : d.kind ≠ .category := by
    intro heq
    rw [heq] at hkind
    exact hkind.elim (by decide) (by decide)
  obtain ⟨result, ready, -, hready, -⟩ := exists_ready hkeys hresults hm
  obtain ⟨hchanges, -⟩ :=
    Options.changes_ready (hkeys.nodup (List.mem_of_getElem? hm)) hready
  obtain ⟨e, he, hchanged⟩ := hchanges.result d hd hstays hcategory
  exact ⟨e, (readies_iff hm hready).mpr he, hchanged⟩

/-- What is ready is supported where support is judged consistently. -/
theorem supports (hkeep : o.keepUnsupported = false) (hm : modules[i]? = some m)
    (hconsistent : JudgesConsistently o pool modules i m) (h : Readies o pool modules i e) :
    ¬ (view o pool modules i m).Unsupported (.decl e.key) ∧
      ∀ x ∈ e.entries, x.Meets (view o pool modules i m).Admits := by
  obtain ⟨m', ready, hm', hready, he⟩ := h
  obtain rfl : m = m' := Option.some.inj (hm.symm.trans hm')
  exact Options.supports_of_ready hkeep hconsistent hready he

/-- The base of what is ready replaces the base as given. -/
theorem base? (hkeys : DistinctKeys modules) (hm : modules[j]? = some m) (hd : d ∈ m.declarations)
    (h : Readies o pool modules j e) (hkey : e.key = d.key) :
    e.base? = d.base?.bind (rebase o pool modules j m) := by
  obtain ⟨m', ready, hm', hready, he⟩ := h
  obtain rfl : m = m' := Option.some.inj (hm.symm.trans hm')
  exact Options.base?_of_ready (hkeys.nodup (List.mem_of_getElem? hm)) hready hd he hkey

/-- What is ready is not that of another module. -/
theorem ne_of_declares (hkeys : DistinctKeys modules) (hd : Readies o pool modules i d)
    (he : Declares modules j e) (hne : j ≠ i) : d.key ≠ e.key := by
  obtain ⟨d', hd', hkey⟩ := hd.declares hkeys
  exact fun heq => hne (hkeys.unique he hd' (heq.symm.trans hkey.symm)).1

/-- What a module sees of another at or above what it has made ready is above that. -/
theorem above (hkeys : DistinctKeys modules) (hd : Readies o pool modules i d)
    (he : Declares modules j e) (hne : j ≠ i)
    (hleads : ReflTransGen (Ascends o pool modules i) d.key e.key) :
    TransGen (Ascends o pool modules i) d.key e.key :=
  (reflTransGen_iff_eq_or_transGen.mp hleads).resolve_left (hd.ne_of_declares hkeys he hne).symm

end Readies

namespace Sees

/-- A base that a module sees is one where it judges support. -/
theorem refers (hkeys : DistinctKeys modules) (hm : modules[i]? = some m)
    (h : Sees o pool modules i e) {base : QualifiedName} (hbase : e.base? = some base) :
    (view o pool modules i m).Refers (.decl e.key) (.decl ⟨.interface, base⟩) := by
  cases h with
  | other hne he => exact .base (find?_view_other hkeys hm he hne) hbase
  | own hown =>
    obtain ⟨m', ready, hm', hready, he⟩ := hown
    obtain rfl : m = m' := Option.some.inj (hm.symm.trans hm')
    exact Options.refers_of_ready (hkeys.nodup (List.mem_of_getElem? hm)) hready he hbase

end Sees

/-- What is seen above a protocol it adopts. -/
theorem adopts_of_ascends (hkeys : DistinctKeys modules) (hkind : a.kind = .protocol)
    (h : ReflTransGen (Ascends o pool modules i) a b) : ReflTransGen (Adopts modules) a b := by
  rcases reflTransGen_iff_eq_or_transGen.mp (links_of_ascends hkeys h) with rfl | hlinks
  · exact .refl
  · exact (adopts_of_protocol hlinks hkind).1.to_reflTransGen

/-- A module sees above what it drops members for. -/
theorem seesAbove_of_mem_reached (hkeys : DistinctKeys modules) (hm : modules[i]? = some m)
    (hready : Pipeline.run ⟨o.readyStages⟩ (context pool modules i) m = .ok ready)
    (hd : d ∈ ready.declarations)
    (hf : f ∈ ((context pool modules i).lookup ready).reached parents d)
    (hprovides : f.Provides x) :
    SeesAbove o pool modules i d.key x f := by
  obtain ⟨hsees, hne, hleads⟩ := ascends_of_mem_reached hkeys hm hready hd hf
  exact ⟨hsees, hne, hleads, hprovides⟩

/-! ### Support in two views -/

/-- A protocol is supported by its module unless its name is removed. -/
theorem not_unsupported_of_protocol (hkeys : DistinctKeys modules) (hm : modules[j]? = some m)
    (hd : d ∈ m.declarations) (hname : d.name ∉ o.remove) (hkind : d.kind = .protocol) :
    ¬ (view o pool modules j m).Unsupported (.decl d.key) := by
  obtain ⟨e, -, hfind, hamended⟩ :=
    @find?_view_own o pool modules j m d hkeys hm hd hname (by rw [hkind]; decide)
  have hdemand : declDemand e = [] := by
    have hkind' : e.kind = .protocol := hamended.kind_eq.trans hkind
    obtain ⟨name, body⟩ := e
    cases body with
    | protocol p => rfl
    | _ => cases hkind'
  rintro ⟨last, hleads, hlacks⟩
  rcases ReflTransGen.cases_head hleads with rfl | ⟨next, hrefers, -⟩
  · cases hlacks with
    | unresolved hnone =>
      rw [hfind] at hnone
      cases hnone
  · obtain ⟨e', hfind', hnext⟩ := Graph.refers_decl_iff.mp hrefers
    obtain rfl : e = e' := Option.some.inj (hfind.symm.trans hfind')
    rw [hdemand] at hnext
    cases hnext

/-- A type that one module sees as supported is so for another, unless it leads there to a removed
name. -/
theorem loses_of_unsupported_type (hkeys : DistinctKeys modules) (hm : modules[i]? = some m)
    (hm' : modules[j]? = some m') (hne : j ≠ i) {id : TypeId}
    (hadmits : (view o pool modules i m).Admits id)
    (hunsupported : ¬ (view o pool modules j m').Admits id) :
    LosesFrom (view o pool modules j m') o.remove (.type id) := by
  have htypes : ∀ {id : TypeId} {next : Node}, (view o pool modules j m').Refers (.type id) next →
      (view o pool modules i m).Refers (.type id) next := by
    intro id next hrefers
    rw [Graph.refers_type_iff] at hrefers ⊢
    exact hrefers
  obtain ⟨last, hleads, hlacks⟩ := not_not.mp hunsupported
  -- Up to the first declaration, both modules see the same types.
  have hfirst : ∀ node, ReflTransGen (view o pool modules j m').Refers node last →
      ¬ (view o pool modules i m).Unsupported node →
      (∀ key, node = .decl key → key.kind ≠ .category) →
      LosesFrom (view o pool modules j m') o.remove node := by
    intro node hleads
    induction hleads using ReflTransGen.head_induction_on with
    | refl =>
      intro hsupported hkind
      cases hlacks with
      | primitive hnode hprimitive =>
        exact absurd ⟨_, .refl, .primitive hnode hprimitive⟩ hsupported
      | @unresolved key hnone =>
        exact loses_of_unsupported hkeys hm hm' hne (hkind key rfl) hsupported
          ⟨_, .refl, .unresolved hnone⟩
    | @head node next hrefers hrest ih =>
      intro hsupported hkind
      cases node with
      | decl key =>
        exact loses_of_unsupported hkeys hm hm' hne (hkind key rfl) hsupported
          ⟨last, hrest.head hrefers, hlacks⟩
      | type id =>
        have hsupported' : ¬ (view o pool modules i m).Unsupported next := by
          rintro ⟨other, hother, hlacks'⟩
          exact hsupported ⟨other, hother.head (htypes hrefers), hlacks'⟩
        obtain ⟨gone, hgone, hrest⟩ := ih hsupported' fun key heq =>
          kind_of_refers (heq ▸ hrefers)
        exact ⟨gone, hgone.head hrefers, hrest⟩
  exact hfirst (.type id) hleads hadmits fun key heq => nomatch heq

/-- A member that one module has as supported is so for another, unless it is a property or its
types lead there to a removed name. -/
theorem loses_of_unsupported_member (hkeys : DistinctKeys modules) (hm : modules[i]? = some m)
    (hm' : modules[j]? = some m') (hne : j ≠ i)
    (hmeets : ∀ z ∈ d.entries, z.Meets (view o pool modules i m).Admits) (hx : d.Provides x)
    {y : Member} (hsame : x.sameAs y = true)
    (hunsupported : ¬ y.Meets (view o pool modules j m').Admits) :
    y.IsProperty ∨ ∃ id ∈ y.types, LosesFrom (view o pool modules j m') o.remove (.type id) := by
  by_cases hproperty : y.IsProperty
  · exact .inl hproperty
  right
  obtain ⟨z, hz, hxz⟩ := hx
  have hzy : z.sameAs y = true := Member.sameAs_trans (Member.sameAs_symm hxz) hsame
  by_contra hkept
  refine hunsupported (Member.meets_of_sameAs hzy (hmeets z hz) hproperty fun id hid hid' => ?_)
  by_contra hnot
  exact hkept ⟨id, hid, loses_of_unsupported_type hkeys hm hm' hne hid' hnot⟩

/-! ### From what is seen to the results -/

/-- Support is judged consistently, if it is judged, in the modules of a key and its ancestors. -/
def ConsistentAbove (o : Options) (pool : Pool) (modules : List Module) (key : DeclKey) : Prop :=
  o.keepUnsupported = false → ∀ j m e, modules[j]? = some m → e ∈ m.declarations →
    ReflTransGen (Links modules) key e.key → JudgesConsistently o pool modules j m

theorem ConsistentAbove.above (h : ConsistentAbove o pool modules a)
    (hleads : ReflTransGen (Links modules) a b) : ConsistentAbove o pool modules b :=
  fun hkeep j m e hm he hlinks => h hkeep j m e hm he (hleads.trans hlinks)

theorem ConsistentAbove.judges (h : ConsistentAbove o pool modules d.key)
    (hkeys : DistinctKeys modules) (hm : modules[i]? = some m) (hd : Readies o pool modules i d)
    (hkeep : o.keepUnsupported = false) : JudgesConsistently o pool modules i m := by
  obtain ⟨e, he, hkey⟩ := hd.declares hkeys
  exact h hkeep i m e hm ((declares_iff hm).mp he) (hkey ▸ .refl)

/-- An ancestor that is seen as supported stays in its own module, unless that drops it because of
a removal. -/
theorem stays_or_loses (hkeys : DistinctKeys modules) (hm : modules[i]? = some m)
    (hm' : modules[j]? = some m') (hne : j ≠ i) (he : e ∈ m'.declarations)
    (hname : e.name ∉ o.remove) (hkind : e.kind = .interface ∨ e.kind = .protocol)
    (hsupported : o.keepUnsupported = false → e.kind = .interface →
      ¬ (view o pool modules i m).Unsupported (.decl e.key)) :
    o.Stays (context pool modules j) m' e.key ∨
      o.keepUnsupported = false ∧ Loses (view o pool modules j m') o.remove e.key := by
  by_cases hunsupported : o.keepUnsupported = false ∧
      (view o pool modules j m').Unsupported (.decl e.key)
  · obtain ⟨hkeep, hunsupported⟩ := hunsupported
    rcases hkind with hkind | hkind
    · refine .inr ⟨hkeep, loses_of_unsupported hkeys hm hm' hne ?_ ?_ hunsupported⟩
      · exact fun heq => absurd (hkind.symm.trans heq) (by decide)
      · exact hsupported hkeep hkind
    · exact absurd hunsupported (not_unsupported_of_protocol hkeys hm' he hname hkind)
  · exact .inl ⟨hname, fun hkeep h => hunsupported ⟨hkeep, h⟩⟩

/-- How a path that a module sees is followed in the results: it is one there, or it has come to
something that another module skips. -/
inductive Traced (o : Options) (pool : Pool) (modules : List Module) (results : List FinalModule)
    (i : Nat) (a : DeclKey) : DeclKey → Prop where
  | derived {b : DeclKey} : ReflTransGen (Derives results) a b → b.name ∉ o.remove →
      Traced o pool modules results i a b
  | skipped {j : Nat} {m : Module} {e e' : Declaration} {b : DeclKey} : modules[j]? = some m →
      e ∈ m.declarations → j ≠ i → e.name ∉ o.remove →
      ReflTransGen (Ascends o pool modules i) a e.key → Readies o pool modules j e' →
      e'.key = e.key → ReflTransGen (Derives results) a e.key → Skips o modules e b →
      Traced o pool modules results i a b

section Trace

variable (hkeys : DistinctKeys modules)
  (hresults : processModules o pool modules = .ok (results.map .ok))
  (hd : Readies o pool modules i d)

include hkeys hresults hd

/-- From where a path is one in the results. -/
theorem traced_of_derived (hm : modules[i]? = some m)
    (hderives : ReflTransGen (Derives results) d.key e.key) (hname : e.name ∉ o.remove)
    (hsees : Sees o pool modules i e) (hleads : ReflTransGen (Ascends o pool modules i) d.key e.key)
    (hsupported : o.keepUnsupported = false → e.kind = .interface →
      ¬ (view o pool modules i m).Unsupported (.decl e.key))
    {p : DeclKey} (hp : p ∈ e.parents)
    (hrest : ReflTransGen (Ascends o pool modules i) p f.key) :
    Traced o pool modules results i d.key p ∨ SeesInVain o pool modules i d.key x f := by
  have hascends : Ascends o pool modules i e.key p := ⟨e, hsees, rfl, hp⟩
  cases hsees with
  | own hown =>
    obtain ⟨-, -, -, -, -, hclear⟩ := hown.source hkeys
    have hstep : Derives results e.key p :=
      (derives_iff hkeys hresults).mpr ⟨i, e, hown, rfl, hp⟩
    exact .inl (.derived (hderives.tail hstep) (hclear.2 p hp))
  | @other j _ hne he =>
    have habove := hd.above hkeys he hne hleads
    have hkind : e.kind = .interface ∨ e.kind = .protocol :=
      kind_of_links (links_of_above hkeys habove)
    obtain ⟨m', hm', he'⟩ := he
    rcases stays_or_loses hkeys hm hm' hne he' hname hkind hsupported with
      hstays | ⟨hkeep, hloses⟩
    · obtain ⟨e', hready, hchanged⟩ := Readies.of_stays hkeys hresults hm' he' hkind hstays
      by_cases hremoved : p.name ∈ o.remove
      · refine .inl (.skipped hm' he' hne hname hleads hready hchanged.key hderives ?_)
        rcases mem_parents.mp hp with ⟨base, hbase, rfl⟩ | ⟨name, hprotocol, rfl⟩
        · exact .base hbase .refl hremoved
        · exact .protocol hprotocol hremoved
      · have hparent := (hchanged.parents_kept p hp).resolve_right hremoved
        have hstep : Derives results e.key p :=
          (derives_iff hkeys hresults).mpr ⟨j, e', hready, hchanged.key, hparent⟩
        exact .inl (.derived (hderives.tail hstep) hremoved)
    · exact .inr ⟨j, e, habove, ⟨m', hm', he'⟩, hne, hname,
        .dropped hkeep hm' hloses (hrest.head hascends)⟩

/-- From where a path has come to something skipped, it leads to more of that or past it, or to
protocols that are lost with it. -/
theorem traced_of_skipped {e' g : Declaration} (hm' : modules[j]? = some m')
    (he : e ∈ m'.declarations) (hne : j ≠ i) (hname : e.name ∉ o.remove)
    (hleads : ReflTransGen (Ascends o pool modules i) d.key e.key)
    (hready : Readies o pool modules j e') (hkey : e'.key = e.key)
    (hderives : ReflTransGen (Derives results) d.key e.key) (hskips : Skips o modules e g.key)
    (hsees : Sees o pool modules i g) {p : DeclKey} (hp : p ∈ g.parents)
    (hrest : ReflTransGen (Ascends o pool modules i) p f.key) :
    Traced o pool modules results i d.key p ∨ SeesInVain o pool modules i d.key x f := by
  cases hsees with
  | own hown =>
    obtain ⟨-, -, -, -, -, hclear⟩ := hown.source hkeys
    exact absurd hskips.mem hclear.1
  | @other l _ _ hg =>
    have hprotocol : p.kind = .protocol → SeesInVain o pool modules i d.key x f := by
      intro hkind
      have hstep : Adopts modules g.key p := ⟨⟨l, g, hg, rfl, hp⟩, hkind⟩
      have hdeclares : Declares modules j e := ⟨m', hm', he⟩
      exact ⟨j, e, hd.above hkeys hdeclares hne hleads, hdeclares, hne, hname,
        .removed hskips ((adopts_of_ascends hkeys hkind hrest).head hstep)⟩
    rcases mem_parents.mp hp with ⟨base, hbase, rfl⟩ | ⟨name, -, rfl⟩
    · generalize hskipped : g.key = key at hskips
      cases hskips with
      | protocol _ _ =>
        have hinterface : g.key.kind = .interface := kind_of_base? hbase
        rw [hskipped] at hinterface
        cases hinterface
      | @base start last hstart hclimbs hremoved =>
        have hclimbs' : ReflTransGen (Climbs o modules) start base :=
          hclimbs.tail ⟨hremoved, l, g, hg, hskipped, hbase⟩
        by_cases hbase' : base ∈ o.remove
        · have hskips' := Skips.base hstart hclimbs' hbase'
          exact .inl (.skipped hm' he hne hname hleads hready hkey hderives hskips')
        · have hrebase : e'.base? = some base := by
            rw [hready.base? hkeys hm' he hkey, hstart, Option.bind_some]
            exact (rebase_eq_some_iff hkeys hm').mpr ⟨hbase', hclimbs'⟩
          have hstep : Derives results e.key ⟨.interface, base⟩ :=
            (derives_iff hkeys hresults).mpr
              ⟨j, e', hready, hkey, mem_parents.mpr (.inl ⟨base, hrebase, rfl⟩)⟩
          exact .inl (.derived (hderives.tail hstep) hbase')
    · exact .inr (hprotocol rfl)

/-- **A path that a module sees is followed in the results**, unless the module sees in vain what it
leads to. -/
theorem traced_or_vain (hm : modules[i]? = some m)
    (hconsistent : ConsistentAbove o pool modules d.key)
    (hleads : ReflTransGen (Ascends o pool modules i) d.key b)
    (hrest : ReflTransGen (Ascends o pool modules i) b f.key) :
    (Traced o pool modules results i d.key b ∧
        (o.keepUnsupported = false → b.kind = .interface →
          ¬ (view o pool modules i m).Unsupported (.decl b))) ∨
      SeesInVain o pool modules i d.key x f := by
  induction hleads with
  | refl =>
    obtain ⟨-, -, -, -, -, hclear⟩ := hd.source hkeys
    exact .inl ⟨.derived .refl hclear.1, fun hkeep _ =>
      (hd.supports hkeep hm (hconsistent.judges hkeys hm hd hkeep)).1⟩
  | @tail b p hleads hstep ih =>
    refine (ih (hrest.head hstep)).elim ?_ .inr
    rintro ⟨htraced, hsupported⟩
    obtain ⟨g, hsees, rfl, hp⟩ := hstep
    -- A base is supported if the interface is.
    have hsupported' : o.keepUnsupported = false → p.kind = .interface →
        ¬ (view o pool modules i m).Unsupported (.decl p) := by
      rintro hkeep hkind ⟨last, hlast, hlacks⟩
      have hp' : p = ⟨.interface, p.name⟩ := by rw [← hkind]
      have hbase : g.base? = some p.name := base?_of_mem_parents (hp' ▸ hp)
      exact hsupported hkeep (kind_of_base? hbase)
        ⟨last, hlast.head (hp' ▸ hsees.refers hkeys hm hbase), hlacks⟩
    have hnext :
        Traced o pool modules results i d.key p ∨ SeesInVain o pool modules i d.key x f := by
      cases htraced with
      | derived hderives hname =>
        exact traced_of_derived hkeys hresults hd hm hderives hname hsees hleads hsupported hp hrest
      | skipped hm' he hne hname hleads' hready hkey hderives hskips =>
        exact traced_of_skipped hkeys hresults hd hm' he hne hname hleads' hready hkey hderives
          hskips hsees hp hrest
    exact hnext.imp_left fun htraced => ⟨htraced, hsupported'⟩

/-- **What a module sees above with a member is ready above**, unless it is seen in vain. -/
theorem SeesAbove.vain_or_ready (hm : modules[i]? = some m)
    (h : SeesAbove o pool modules i d.key x f)
    (hconsistent : ConsistentAbove o pool modules d.key) (hx : d.Provides x) :
    SeesInVain o pool modules i d.key x f ∨
      ∃ j e, ReadiesAbove o pool modules results d.key x f j e := by
  have hkind := kind_of_links (links_of_above hkeys h.leads)
  obtain ⟨hsees, hne, hleads, hprovides⟩ := h
  have hproper : ReflTransGen (Derives results) d.key f.key →
      TransGen (Derives results) d.key f.key := fun hderives =>
    (reflTransGen_iff_eq_or_transGen.mp hderives).resolve_left hne
  refine (traced_or_vain hkeys hresults hd hm hconsistent hleads.to_reflTransGen .refl).elim ?_ .inl
  rintro ⟨htraced, hsupported⟩
  cases hsees with
  | own hown =>
    cases htraced with
    | derived hderives => exact .inr ⟨i, f, hown, rfl, hproper hderives, hprovides⟩
    | skipped _ _ _ _ _ _ _ _ hskips =>
      obtain ⟨-, -, -, -, -, hclear⟩ := hown.source hkeys
      exact absurd hskips.mem hclear.1
  | @other j _ hj hf =>
    cases htraced with
    | @skipped l m' below _ _ hm' hbelow hne' hname' hleads' _ _ _ hskips =>
      have hdeclares : Declares modules l below := ⟨m', hm', hbelow⟩
      exact .inl ⟨l, below, hd.above hkeys hdeclares hne' hleads', hdeclares, hne', hname',
        .removed hskips .refl⟩
    | derived hderives hname =>
      have hvain : Retracts o pool modules i j f x f → SeesInVain o pool modules i d.key x f :=
        fun hretracts => ⟨j, f, hleads, hf, hj, hname, hretracts⟩
      obtain ⟨m', hm', hf'⟩ := hf
      rcases stays_or_loses hkeys hm hm' hj hf' hname hkind hsupported with
        hstays | ⟨hkeep, hloses⟩
      · obtain ⟨e, hready, hchanged⟩ := Readies.of_stays hkeys hresults hm' hf' hkind hstays
        obtain ⟨y, hy, hsame⟩ := hprovides
        rcases hchanged.entries_kept y hy with hy' | hcorrected | ⟨hkeep, hunsupported⟩
        · exact .inr ⟨j, e, hready, hchanged.key, hchanged.key ▸ hproper hderives, y, hy', hsame⟩
        · obtain ⟨null, type, rfl, hoverrides, hreturn⟩ := hcorrected
          obtain ⟨hnull, hselector, rfl⟩ := ExceptionRule.overrides_iosSdk_iff.mp hoverrides
          exact .inl (hvain (.corrected hnull hy hselector hreturn hsame))
        · have hmeets := (hd.supports hkeep hm (hconsistent.judges hkeys hm hd hkeep)).2
          exact .inl (hvain (.unsupported hkeep hm' hy hsame hunsupported
            (loses_of_unsupported_member hkeys hm hm' hj hmeets hx hsame hunsupported)))
      · exact .inl (hvain (.dropped hkeep hm' hloses .refl))

/-- What a module drops is provided above, or the module relies in vain, if this holds of all that
is ready above. -/
theorem SeesAbove.provided_or_relies (hm : modules[i]? = some m)
    (h : SeesAbove o pool modules i d.key x f)
    (hconsistent : ConsistentAbove o pool modules d.key) (hx : d.Provides x)
    (habove : ∀ j e, Readies o pool modules j e → TransGen (Links modules) d.key e.key →
      e.Provides x →
      (∃ last, Outputs results last ∧ ReflTransGen (Derives results) e.key last.key ∧
        last.Provides x) ∨ ReliesInVain o pool modules results x j e) :
    (∃ e, Outputs results e ∧ TransGen (Derives results) d.key e.key ∧ e.Provides x) ∨
      ReliesInVain o pool modules results x i d := by
  by_cases hvain : ∀ g j e, SeesAbove o pool modules i d.key x g →
      ReadiesAbove o pool modules results d.key x g j e →
      ReliesInVain o pool modules results x j e
  · exact .inr (.intro hd hx h
      (fun g hg => hg.vain_or_ready hkeys hresults hd hm hconsistent hx) hvain)
  · push Not at hvain
    obtain ⟨g, j, e, hg, he, hkept⟩ := hvain
    have hlinks : TransGen (Links modules) d.key e.key := he.same ▸ links_of_above hkeys hg.leads
    obtain ⟨last, hlast, hrest, hprovided⟩ :=
      (habove j e he.readies hlinks he.provides).resolve_right hkept
    exact .inl ⟨last, hlast, he.leads.trans_left hrest, hprovided⟩

end Trace

/-- **What is ready provides is put out there or above**, unless its module relies in vain. The
induction goes from ancestors downwards. -/
theorem provided_or_relies (hkeys : DistinctKeys modules) (hacyclic : Acyclic modules)
    (hresults : processModules o pool modules = .ok (results.map .ok))
    (hconsistent : ConsistentAbove o pool modules d.key) (hd : Readies o pool modules i d)
    (hx : d.Provides x) :
    (∃ e, Outputs results e ∧ ReflTransGen (Derives results) d.key e.key ∧ e.Provides x) ∨
      ReliesInVain o pool modules results x i d := by
  obtain ⟨given, hgiven, hkey⟩ := hd.declares hkeys
  refine ancestors_induction (P := fun key => ∀ i d, Readies o pool modules i d → d.key = key →
    ConsistentAbove o pool modules d.key → d.Provides x →
    (∃ e, Outputs results e ∧ ReflTransGen (Derives results) d.key e.key ∧ e.Provides x) ∨
      ReliesInVain o pool modules results x i d) hacyclic ?_ hgiven i d hd hkey.symm
    hconsistent hx
  intro l g _ ih i d hd hkey hconsistent hx
  obtain ⟨m, ready, hm, hready, hmem⟩ := hd
  have hd : Readies o pool modules i d := (readies_iff hm hready).mpr hmem
  obtain ⟨y, hy, hsame⟩ := hx
  have hkept : y ∈ (o.final (context pool modules i) ready d).entries ∨
      ∃ e ∈ ((context pool modules i).lookup ready).reached parents d, e.Provides y :=
    Options.mem_final_or_inherited hy
  rcases hkept with hstays | ⟨f, hreached, hprovides⟩
  · refine .inl ⟨o.final (context pool modules i) ready d, ?_, ?_, y, hstays, hsame⟩
    · exact (outputs_iff hkeys hresults).mpr ⟨i, m, ready, hm, hready, d, hmem, rfl⟩
    · rw [Options.key_final]
  have habove := seesAbove_of_mem_reached hkeys hm hready hmem hreached (hprovides.of_sameAs hsame)
  refine (habove.provided_or_relies hkeys hresults hd hm hconsistent ⟨y, hy, hsame⟩ ?_).imp_left ?_
  · intro j e he hlinks hprovides'
    obtain ⟨g', hg', hgkey⟩ := he.declares hkeys
    exact ih j g' hg' (by rwa [← hkey, hgkey]) j e he hgkey.symm
      (hconsistent.above hlinks.to_reflTransGen) hprovides'
  · rintro ⟨e, he, hderives, hprovided⟩
    exact ⟨e, he, hderives.to_reflTransGen, hprovided⟩

/-- **Whatever is dropped as inherited is provided by an ancestor in the results**, unless the
module relies in vain: if a member of a declaration that is ready is not in the result, a proper
ancestor in the results has the same member, or else everything with the member that the module sees
above is kept back by another module, or is there but has dropped the member in vain itself. Modules
in which support is judged inconsistently are left out. -/
theorem processModules_provides (o : Options) (pool : Pool) (modules : List Module)
    (hkeys : DistinctKeys modules) (hacyclic : Acyclic modules) :
    (pool.Closed → pool.contains .instancetype = true →
      (∀ m ∈ modules, ∀ d ∈ m.declarations, d.Inside pool) →
      ∃ results : List FinalModule, processModules o pool modules = .ok (results.map .ok)) ∧
    ∀ results : List FinalModule, processModules o pool modules = .ok (results.map .ok) →
      ∀ (i : Nat) (m : Module) (result : FinalModule), modules[i]? = some m →
        results[i]? = some result →
        ∃ ready, Pipeline.run ⟨o.readyStages⟩ (context pool modules i) m = .ok ready ∧
          result.declarations.map key = ready.declarations.map key ∧
          ∀ d ∈ ready.declarations, ConsistentAbove o pool modules d.key →
            ∀ d' ∈ result.declarations, d'.key = d.key → ∀ x ∈ d.entries, x ∉ d'.entries →
              (∃ e, Outputs results e ∧ TransGen (Derives results) d.key e.key ∧ e.Provides x) ∨
                ReliesInVain o pool modules results x i d := by
  constructor
  · intro hpool hfixed hinside
    exact exists_results hpool hfixed hinside
  intro results hresults i m result hm hresult
  obtain ⟨result', ready, hresult', hready, hfinal⟩ := exists_ready hkeys hresults hm
  obtain rfl : result = result' := Option.some.inj (hresult.symm.trans hresult')
  refine ⟨ready, hready, ?_, ?_⟩
  · rw [hfinal, List.map_map]
    simp [Function.comp_def]
  intro d hmem hconsistent d' hd' hkey x hx hdropped
  have hnodup := hkeys.nodup (List.mem_of_getElem? hm)
  have hnodup' := hnodup.sublist (Options.keys_ready hnodup hready)
  rw [hfinal] at hd'
  obtain ⟨g, hg, rfl⟩ := List.mem_map.mp hd'
  rw [Options.key_final] at hkey
  obtain rfl : g = d := List.inj_on_of_nodup_map hnodup' hg hmem hkey
  obtain ⟨f, hreached, hprovides⟩ := (Options.mem_final_or_inherited hx).resolve_left hdropped
  have habove := seesAbove_of_mem_reached hkeys hm hready hmem hreached hprovides
  refine habove.provided_or_relies hkeys hresults ((readies_iff hm hready).mpr hmem) hm hconsistent
    (provides_of_mem hx) ?_
  intro j e he hlinks hprovides'
  exact provided_or_relies hkeys hacyclic hresults (hconsistent.above hlinks.to_reflTransGen) he
    hprovides'

/-! ### Two modules -/

namespace Inheriting

def method (selector : String) (type : TypeId) : Method :=
  { selector, signature := [type] }

def interface (name : QualifiedName) (base : Option QualifiedName) (members : Members) :
    Declaration :=
  ⟨name, .interface { base, members }⟩

def tidy : Method :=
  method "tidy" (.ofPrimitive .void)

/-- The interface to be removed. -/
def gone : QualifiedName :=
  ⟨"Foundation", "Gone"⟩

def options : Options :=
  { remove := [gone] }

/-- An interface that has the method, before and after its base is removed. -/
def base (above : Option QualifiedName) : Declaration :=
  interface ⟨"Foundation", "Base"⟩ above { instanceMethods := [tidy] }

/-- An interface that has the method of its base too. -/
def sub : Declaration :=
  interface ⟨"App", "Sub"⟩ (some ⟨"Foundation", "Base"⟩) { instanceMethods := [tidy] }

def foundation : Module :=
  { name := "Foundation"
    declarations := [interface gone none { instanceMethods := [tidy] }, base (some gone)] }

def app : Module :=
  { name := "App", declarations := [sub] }

def batch : List Module :=
  [foundation, app]

theorem distinctKeys : DistinctKeys batch := by
  unfold DistinctKeys
  decide

theorem acyclic : Acyclic batch :=
  acyclic_of_rank (fun key => ["Gone", "Base", "Sub"].idxOf key.name.name) (by decide)

theorem judgesConsistently {i : Nat} {m : Module} (hm : batch[i]? = some m) :
    JudgesConsistently options .initial batch i m := by
  match i, hm with
  | 0, rfl => exact judgesConsistently_of_kept (by decide +kernel)
  | 1, rfl => exact judgesConsistently_of_kept (by decide +kernel)

def left : List FinalModule :=
  [⟨"Foundation", ⟨[base none]⟩, []⟩,
    ⟨"App", ⟨[interface sub.name (some (base none).name) {}]⟩, []⟩]

theorem processModules_eq : processModules options .initial batch = .ok (left.map .ok) := by
  decide +kernel

theorem run_foundation :
    Pipeline.run ⟨options.readyStages⟩ (context .initial batch 0) foundation =
      .ok { foundation with declarations := [base none] } := by
  decide +kernel

theorem run_app :
    Pipeline.run ⟨options.readyStages⟩ (context .initial batch 1) app = .ok app := by
  decide +kernel

theorem readies_base : Readies options .initial batch 0 (base none) :=
  (readies_iff rfl run_foundation).mpr (List.mem_singleton_self _)

theorem readies_sub : Readies options .initial batch 1 sub :=
  (readies_iff rfl run_app).mpr (List.mem_singleton_self _)

/-- Above the interface its own module sees nothing, since the removed base is gone. -/
theorem not_ascends {key : DeclKey} :
    ¬ Ascends options .initial batch 0 (base none).key key := by
  rintro ⟨e, hsees, hkey, hparent⟩
  cases hsees with
  | own hown =>
    obtain rfl := List.mem_singleton.mp ((readies_iff rfl run_foundation).mp hown)
    exact List.not_mem_nil hparent
  | other hne he =>
    have hbase : Declares batch 0 (base (some gone)) := ⟨foundation, rfl, by decide⟩
    exact hne (distinctKeys.unique he hbase hkey).1

/-- The base keeps the method, although the removed interface has it too. -/
theorem not_reliesInVain :
    ¬ ReliesInVain options .initial batch left (.instanceMethod tidy) 1 sub := by
  have hascends : Ascends options .initial batch 1 sub.key (base none).key :=
    ⟨sub, .own readies_sub, rfl, by decide⟩
  have hderives : Derives left sub.key (base none).key :=
    ⟨_, ⟨_, List.mem_of_getElem? (i := 1) rfl, List.mem_singleton_self _⟩, rfl, by decide⟩
  rintro ⟨-, -, -, -, hrelies⟩
  cases hrelies (base (some gone)) 0 (base none)
    ⟨.other (j := 0) (by decide) ⟨foundation, rfl, by decide⟩, by decide, .single hascends,
      provides_of_mem (by decide)⟩
    ⟨readies_base, rfl, .single hderives, provides_of_mem (by decide)⟩ with
  | intro _ _ habove _ _ =>
    obtain ⟨key, hfirst, -⟩ := TransGen.head'_iff.mp habove.leads
    exact not_ascends hfirst

end Inheriting

/-- The method that the subclass does not keep is provided by its base, also if another interface
that has it is removed above. -/
theorem processModules_provides_inheriting :
    DistinctKeys Inheriting.batch ∧ Acyclic Inheriting.batch ∧
      processModules Inheriting.options .initial Inheriting.batch =
        .ok (Inheriting.left.map .ok) ∧
      ∃ e, Outputs Inheriting.left e ∧
        TransGen (Derives Inheriting.left) Inheriting.sub.key e.key ∧
        e.Provides (.instanceMethod Inheriting.tidy) := by
  refine ⟨Inheriting.distinctKeys, Inheriting.acyclic, Inheriting.processModules_eq, ?_⟩
  obtain ⟨-, hprovides⟩ := processModules_provides Inheriting.options .initial Inheriting.batch
    Inheriting.distinctKeys Inheriting.acyclic
  obtain ⟨ready, hready, -, hdropped⟩ :=
    hprovides _ Inheriting.processModules_eq 1 Inheriting.app _ rfl rfl
  have hmem : Inheriting.sub ∈ ready.declarations :=
    (readies_iff rfl hready).mp Inheriting.readies_sub
  have hprovided := hdropped _ hmem (fun _ j m e hm _ _ => Inheriting.judgesConsistently hm) _
    (List.mem_singleton_self _) rfl (.instanceMethod Inheriting.tidy) (by decide) (by decide)
  exact hprovided.resolve_right Inheriting.not_reliesInVain

/-! ### What is retracted -/

/-- A member of what is ready is not in the results, and nothing in the results provides it. -/
def Lost (o : Options) (pool : Pool) (modules : List Module) (results : List FinalModule) (i : Nat)
    (key : DeclKey) (x : Member) : Prop :=
  (∃ d, Readies o pool modules i d ∧ d.key = key ∧ x ∈ d.entries) ∧
    (∃ d, Outputs results d ∧ d.key = key) ∧ ∀ e, Outputs results e → ¬ e.Provides x

namespace Retracting

open Inheriting (method interface tidy gone options)

def types : Pool :=
  Pool.initial.internAll [.interface gone []]

/-- A method that returns the interface to be removed. -/
def make : Method :=
  method "make" ⟨30⟩

/-- The class method of `NSNull` before it is corrected. -/
def null : Method :=
  method "null" ⟨28⟩

def size (type : TypeId) : Property :=
  { name := "size", type }

def foundation : Module :=
  { name := "Foundation"
    declarations := [
      interface gone none { instanceMethods := [tidy] },
      interface ⟨"Foundation", "Base"⟩ (some gone) {},
      interface ⟨"Foundation", "Outer"⟩ (some ⟨"Kit", "Gap"⟩) { instanceMethods := [tidy] },
      interface ⟨"Foundation", "Wide"⟩ none { properties := [size (.ofPrimitive .int128)] },
      interface ⟨"Foundation", "Maker"⟩ none { instanceMethods := [make] },
      interface ⟨"Foundation", "NSNull"⟩ none { classMethods := [null] }] }

/-- An interface whose base is not removed in this module. -/
def kit : Module :=
  { name := "Kit", declarations := [interface ⟨"Kit", "Gap"⟩ (some gone) {}] }

/-- An interface with a base in the first module. -/
def heir (name base : String) (members : Members) : Declaration :=
  interface ⟨"App", name⟩ (some ⟨"Foundation", base⟩) members

/-- An interface whose base is an heir itself. -/
def subSub (members : Members) : Declaration :=
  interface ⟨"App", "SubSub"⟩ (some ⟨"App", "Sub"⟩) members

/-- Interfaces, each with a member that an ancestor has too. -/
def heirs : List (Declaration × Member) :=
  [(heir "Sub" "Base" { instanceMethods := [tidy] }, .instanceMethod tidy),
    (subSub { instanceMethods := [tidy] }, .instanceMethod tidy),
    (heir "Inner" "Outer" { instanceMethods := [tidy] }, .instanceMethod tidy),
    (heir "Narrow" "Wide" { properties := [size (.ofPrimitive .int)] },
      .property (size (.ofPrimitive .int))),
    (heir "SubMaker" "Maker" { instanceMethods := [make] }, .instanceMethod make),
    (heir "SubNull" "NSNull" { classMethods := [null] }, .classMethod null)]

def app : Module :=
  { name := "App", declarations := heirs.map Prod.fst }

def batch : List Module :=
  [foundation, app, kit]

def left : List FinalModule :=
  [⟨"Foundation", ⟨[
      interface ⟨"Foundation", "Base"⟩ none {},
      interface ⟨"Foundation", "Wide"⟩ none {},
      interface ⟨"Foundation", "Maker"⟩ none {},
      interface ⟨"Foundation", "NSNull"⟩ none
        { classMethods := [method "null" .instancetype] }]⟩, []⟩,
    ⟨"App", ⟨[heir "Sub" "Base" {}, subSub {}, heir "Inner" "Outer" {}, heir "Narrow" "Wide" {},
      heir "SubMaker" "Maker" {}, heir "SubNull" "NSNull" {}]⟩, []⟩,
    ⟨"Kit", ⟨[interface ⟨"Kit", "Gap"⟩ none {}]⟩, []⟩]

theorem distinctKeys : DistinctKeys batch := by
  unfold DistinctKeys
  decide

theorem acyclic : Acyclic batch :=
  acyclic_of_rank (fun key =>
    ["Gone", "Gap", "Outer", "Base", "Wide", "Maker", "NSNull", "Sub"].idxOf key.name.name)
    (by decide)

theorem processModules_eq : processModules options types batch = .ok (left.map .ok) := by
  decide +kernel

theorem run_readyStages :
    Pipeline.run ⟨options.readyStages⟩ (context types batch 1) app = .ok app := by
  decide +kernel

theorem not_provided :
    ∀ heir ∈ heirs, ∀ e ∈ left.flatMap FinalModule.declarations, ∀ y ∈ e.entries,
      heir.2.sameAs y = false := by
  decide

end Retracting

/-- What a module drops is lost if its ancestor loses its base, is dropped itself, does without an
unsupported member or has it corrected, and also below an ancestor that has lost it so. -/
theorem processModules_retracted_lost :
    DistinctKeys Retracting.batch ∧ Acyclic Retracting.batch ∧
      ∃ results : List FinalModule,
        processModules Inheriting.options Retracting.types Retracting.batch =
          .ok (results.map .ok) ∧
        ∀ heir ∈ Retracting.heirs,
          Lost Inheriting.options Retracting.types Retracting.batch results 1 heir.1.key
            heir.2 := by
  refine ⟨Retracting.distinctKeys, Retracting.acyclic, Retracting.left,
    Retracting.processModules_eq, ?_⟩
  intro heir hheir
  have hx : ∀ heir ∈ Retracting.heirs, heir.2 ∈ heir.1.entries := by decide
  have hleft : ∀ heir ∈ Retracting.heirs,
      ∃ e ∈ Retracting.left.flatMap FinalModule.declarations, e.key = heir.1.key := by decide
  refine ⟨⟨heir.1, ?_, rfl, hx heir hheir⟩, ?_, ?_⟩
  · exact (readies_iff rfl Retracting.run_readyStages).mpr (List.mem_map_of_mem hheir)
  · obtain ⟨e, he, hkey⟩ := hleft heir hheir
    exact ⟨e, List.mem_flatMap.mp he, hkey⟩
  · rintro e he ⟨y, hy, hsame⟩
    have hother := Retracting.not_provided heir hheir e (List.mem_flatMap.mpr he) y hy
    exact Bool.false_ne_true (hother.symm.trans hsame)

end ObjcMetadata.Batch
