import ObjcMetadata.Proofs.Stage.Change
/-!
What the removal of declarations repairs, whatever keys are repeated.

Each declaration of a module has an `outcome`. Nothing that stays has a removed name or mentions
one as its base, as a protocol that it adopts or as the interface that it extends (`apply_free`).
What is removed and repaired is decided by bare names, though, so that a declaration that mentions
nothing removed need not stay as it is: a category goes with a namesake on a removed interface, and
an interface gets the base that the last of its namesakes that lose their bases gets
(`apply_passes_iff`). The lists of categories are cleared of the categories that are removed from
the module. A category of a removed name that the module does not declare stays on them
(`categories_free_iff`).
-/

namespace ObjcMetadata

/-- The categories that an interface lists as its own. -/
def Declaration.categories (d : Declaration) : List QualifiedName :=
  (d.interface?.map (·.categories)).getD []

theorem Declaration.kind_of_mem_categories {d : Declaration} {c : QualifiedName}
    (h : c ∈ d.categories) : d.kind = .interface := by
  obtain ⟨name, body⟩ := d
  cases body with
  | interface i => rfl
  | _ => simp [categories, interface?] at h

namespace Removal

open Relation Declaration

variable {names categories : List QualifiedName}
  {bases : List (QualifiedName × Option QualifiedName)} {external : Resolver}
  {ds : List Declaration} {m : Module} {d d' : Declaration} {c name : QualifiedName}

/-! ### The repair of one declaration -/

section

variable (names categories : List QualifiedName)
  (bases : List (QualifiedName × Option QualifiedName)) (d : Declaration)

@[simp] theorem extended?_repaired :
    (repaired names categories bases d).extended? = d.extended? :=
  map_extended_repaired names categories bases d

@[simp] theorem categories_repaired :
    (repaired names categories bases d).categories = d.categories.filter (· ∉ categories) := by
  obtain ⟨name, body⟩ := d
  cases body <;> rfl

end

theorem repaired_eq_self_iff :
    repaired names categories bases d = d ↔
      (d.kind = .interface → baseAfter bases d.name d.base? = d.base?) ∧
        (∀ p ∈ d.protocols, p ∉ names) ∧ ∀ c ∈ d.categories, c ∉ categories := by
  obtain ⟨name, body⟩ := d
  cases body with
  | interface i =>
    obtain ⟨base, protocols, listed, members⟩ := i
    simp [repaired, kind, base?, interface?, Declaration.protocols, Declaration.categories]
  | protocol p =>
    obtain ⟨protocols, members⟩ := p
    simp [repaired, kind, Declaration.protocols, Declaration.categories, interface?]
  | category c =>
    obtain ⟨extended, protocols, members⟩ := c
    simp [repaired, kind, Declaration.protocols, Declaration.categories, interface?]
  | _ => simp [repaired, kind, Declaration.protocols, Declaration.categories, interface?]

/-! ### The outcome in a module -/

/-- What becomes of a declaration of a module, if it stays. -/
def outcome (names : List QualifiedName) (external : Resolver) (m : Module) (d : Declaration) :
    Option Declaration :=
  rewrite names (removedCategories names m.declarations)
    (newBases names (m.index.resolveOr external) m.declarations) d

theorem declarations_apply (names : List QualifiedName) (external : Resolver) (m : Module) :
    (apply names external m).declarations =
      m.declarations.filterMap (outcome names external m) :=
  declarationsAfter_eq names (m.index.resolveOr external) m.declarations

/-- A category of a name is among the declarations that extends an interface to be removed. -/
def Orphaned (names : List QualifiedName) (ds : List Declaration) (name : QualifiedName) : Prop :=
  ∃ e ∈ ds, e.name = name ∧ ∃ i ∈ names, e.extended? = some i

/-- **The categories that are removed** by name are those with a removed name and those of a name
that a category on a removed interface has. -/
theorem mem_removedCategories :
    c ∈ removedCategories names ds ↔
      (c ∈ names ∧ ∃ e ∈ ds, e.key = ⟨.category, c⟩) ∨ Orphaned names ds c := by
  have hremoved : c ∈ removedCategories names ds ↔ ∃ e ∈ ds,
      (c ∈ names ∧ e.key = ⟨.category, c⟩) ∨ e.name = c ∧ ∃ i ∈ names, e.extended? = some i := by
    unfold removedCategories
    rw [List.mem_filterMap]
    refine exists_congr fun e => and_congr_right' ?_
    obtain ⟨name, body⟩ := e
    cases body <;> simp [category?, extended?, key, kind]
    grind
  rw [hremoved]
  unfold Orphaned
  simp only [and_or_left, exists_or]
  refine or_congr_left ⟨?_, ?_⟩
  · rintro ⟨e, he, hc, hkey⟩
    exact ⟨hc, e, he, hkey⟩
  · rintro ⟨hc, e, he, hkey⟩
    exact ⟨e, he, hc, hkey⟩

theorem outcome_eq_none_iff :
    outcome names external m d = none ↔
      d.name ∈ names ∨ d.kind = .category ∧ Orphaned names m.declarations d.name := by
  unfold outcome
  rw [rewrite, ite_eq_left_iff, mem_removedCategories]
  simp only [reduceCtorEq, imp_false, not_not]
  tauto

theorem outcome_cases (h : outcome names external m d = some d') :
    d.name ∉ names ∧ (d.kind = .category → ¬ Orphaned names m.declarations d.name) ∧
      d' = repaired names (removedCategories names m.declarations)
        (newBases names (m.index.resolveOr external) m.declarations) d := by
  obtain ⟨hname, hcategory, heq⟩ := rewrite_eq_some_iff.mp h
  exact ⟨hname, fun hkind horphaned =>
    hcategory hkind (mem_removedCategories.mpr (.inr horphaned)), heq⟩

/-! ### What stays mentions nothing removed -/

/-- A declaration mentions none of the names: neither as its own nor as those of its base, of the
protocols that it adopts and of the interface that it extends. -/
structure Free (names : List QualifiedName) (d : Declaration) : Prop where
  name : d.name ∉ names
  base : ∀ b, d.base? = some b → b ∉ names
  protocols : ∀ p ∈ d.protocols, p ∉ names
  extended : ∀ i, d.extended? = some i → i ∉ names

theorem base?_outcome (h : outcome names external m d = some d') :
    d'.base? = d.base? ∧ (d.kind = .interface → deciding names m.declarations d.name = none) ∨
      ∃ e, d.kind = .interface ∧ deciding names m.declarations d.name = some e ∧
        d'.base? = e.base?.bind (survivingBase names (m.index.resolveOr external)) := by
  obtain ⟨-, -, rfl⟩ := outcome_cases h
  rw [base?_repaired]
  by_cases hkind : d.kind = .interface
  · rw [if_pos hkind, baseAfter_newBases]
    cases hdeciding : deciding names m.declarations d.name with
    | none => exact .inl ⟨rfl, fun _ => rfl⟩
    | some e => exact .inr ⟨e, hkind, rfl, rfl⟩
  · rw [if_neg hkind, base?_of_kind hkind]
    exact .inl ⟨rfl, fun h => absurd h hkind⟩

theorem free_of_outcome (hd : d ∈ m.declarations) (h : outcome names external m d = some d') :
    Free names d' := by
  have hbase := base?_outcome h
  obtain ⟨hname, hcategory, rfl⟩ := outcome_cases h
  constructor
  case name => rwa [name_repaired]
  case base =>
    intro b hb
    rcases hbase with ⟨hsame, hdeciding⟩ | ⟨e, -, -, hsurviving⟩
    · rw [hsame] at hb
      exact not_mem_of_deciding (hdeciding (kind_of_base? hb)) hd hb
    · rw [hsurviving] at hb
      obtain ⟨removed, -, hlast⟩ := Option.bind_eq_some_iff.mp hb
      exact (survivingBase_eq_some_iff.mp hlast).1
  case protocols =>
    intro p hp
    rw [protocols_repaired] at hp
    simpa using (List.mem_filter.mp hp).2
  case extended =>
    intro i hi hmem
    rw [extended?_repaired] at hi
    exact hcategory (kind_of_extended? hi) ⟨d, hd, rfl, i, hmem, hi⟩

/-- **After a removal nothing mentions what was removed.** What stays is a declaration of the module
with the removed protocols off its list; its base is as it was, or it is the first that stays on the
chain of bases, in this module and others, from a removed base of an interface of its key. Whatever
has another name stays, but for categories. -/
theorem apply_free (names : List QualifiedName) (external : Resolver) (m : Module) :
    (∀ d ∈ (apply names external m).declarations, Free names d) ∧
      (∀ d' ∈ (apply names external m).declarations, ∃ d ∈ m.declarations, Retained names d d' ∧
        (d'.base? = d.base? ∨ ∃ e ∈ m.declarations, e.key = d.key ∧
          ∃ b ∈ names, e.base? = some b ∧ ∀ last, d'.base? = some last ↔
            last ∉ names ∧
              ReflTransGen (Climbs names (m.index.resolveOr external)) b last)) ∧
      ∀ d ∈ m.declarations, d.name ∉ names → d.kind ≠ .category →
        ∃ d' ∈ (apply names external m).declarations, d'.key = d.key := by
  rw [declarations_apply]
  refine ⟨?_, ?_, ?_⟩
  · intro d' hd'
    obtain ⟨d, hd, houtcome⟩ := List.mem_filterMap.mp hd'
    exact free_of_outcome hd houtcome
  · intro d' hd'
    obtain ⟨d, hd, houtcome⟩ := List.mem_filterMap.mp hd'
    refine ⟨d, hd, of_rewrite houtcome, ?_⟩
    rcases base?_outcome houtcome with ⟨hsame, -⟩ | ⟨e, hkind, hdeciding, hsurviving⟩
    · exact .inl hsame
    · obtain ⟨he, hkey, b, hb, hbase⟩ := deciding_eq_some hdeciding
      refine .inr ⟨e, he, by rw [hkey, key, hkind], b, hb, hbase, fun last => ?_⟩
      rw [hsurviving, hbase, Option.bind_some, survivingBase_eq_some_iff]
  · intro d hd hname hkind
    obtain ⟨d', houtcome⟩ := exists_rewrite hname hkind
    exact ⟨d', List.mem_filterMap.mpr ⟨d, hd, houtcome⟩, (of_rewrite houtcome).key⟩

namespace Abroad

/-- Names of declarations of another module. -/
def gone : List QualifiedName :=
  [⟨"Kit", "Gone"⟩, ⟨"Kit", "Extras"⟩]

/-- The other module, as it is before anything is removed. -/
def kit : DeclTable :=
  .ofList
    [⟨⟨"Kit", "Gone"⟩, .interface { base := some ⟨"Kit", "Root"⟩ }⟩,
      ⟨⟨"Kit", "Extras"⟩, .category { extended := ⟨"App", "View"⟩ }⟩]

/-- An interface that lists a category of the other module. -/
def view (base : QualifiedName) : Declaration :=
  ⟨⟨"App", "View"⟩, .interface { base := some base, categories := [⟨"Kit", "Extras"⟩] }⟩

/-- A module with an interface whose base is in the other module. -/
def app : Module where
  name := "App"
  declarations := [view ⟨"Kit", "Gone"⟩]

/-- The chain of bases runs through the other module. -/
theorem apply_free_view :
    (apply gone kit.get? app).declarations = [view ⟨"Kit", "Root"⟩] ∧
      Free gone (view ⟨"Kit", "Root"⟩) := by
  have happly : (apply gone kit.get? app).declarations = [view ⟨"Kit", "Root"⟩] := by
    decide +kernel
  refine ⟨happly, (apply_free gone kit.get? app).1 _ ?_⟩
  rw [happly]
  exact List.mem_singleton_self _

end Abroad

/-! ### What mentions nothing removed -/

/-- A declaration mentions nothing that is removed: it is free of the names, and so are the
categories that it lists, of which none extends an interface to be removed. -/
structure Unconcerned (names : List QualifiedName) (ds : List Declaration) (d : Declaration) : Prop
    extends Free names d where
  listed : ∀ c ∈ d.categories, c ∉ names ∧ ¬ Orphaned names ds c

instance : Decidable (Orphaned names ds name) :=
  inferInstanceAs (Decidable (∃ e ∈ ds, e.name = name ∧ ∃ i ∈ names, e.extended? = some i))

instance : Decidable (Free names d) :=
  decidable_of_iff (d.name ∉ names ∧ (∀ b ∈ d.base?.toList, b ∉ names) ∧
      (∀ p ∈ d.protocols, p ∉ names) ∧ ∀ i ∈ d.extended?.toList, i ∉ names) <| by
    simp only [Option.mem_toList]
    exact ⟨fun ⟨h₁, h₂, h₃, h₄⟩ => ⟨h₁, h₂, h₃, h₄⟩, fun ⟨h₁, h₂, h₃, h₄⟩ => ⟨h₁, h₂, h₃, h₄⟩⟩

instance : Decidable (Unconcerned names ds d) :=
  decidable_of_iff (Free names d ∧ ∀ c ∈ d.categories, c ∉ names ∧ ¬ Orphaned names ds c)
    ⟨fun ⟨hfree, hlisted⟩ => ⟨hfree, hlisted⟩, fun h => ⟨h.toFree, h.listed⟩⟩

/-- What mentions nothing removed stays as it is unless a namesake decides otherwise. -/
theorem outcome_eq_self_iff (h : Unconcerned names m.declarations d) :
    outcome names external m d = some d ↔
      (d.kind = .category → ¬ Orphaned names m.declarations d.name) ∧
        (d.kind = .interface → ∀ e, deciding names m.declarations d.name = some e →
          e.base?.bind (survivingBase names (m.index.resolveOr external)) = d.base?) := by
  constructor
  · intro hsame
    obtain ⟨-, hcategory, heq⟩ := outcome_cases hsame
    refine ⟨hcategory, fun hkind e hdeciding => ?_⟩
    have hbase := (repaired_eq_self_iff.mp heq.symm).1 hkind
    rwa [baseAfter_newBases, hdeciding] at hbase
  · rintro ⟨hcategory, hbase⟩
    have hstays : outcome names external m d ≠ none := by
      rw [Ne, outcome_eq_none_iff, not_or, not_and]
      exact ⟨h.name, hcategory⟩
    obtain ⟨d', hd'⟩ := Option.ne_none_iff_exists'.mp hstays
    obtain ⟨-, -, rfl⟩ := outcome_cases hd'
    rw [hd', Option.some.injEq, repaired_eq_self_iff]
    refine ⟨fun hkind => ?_, h.protocols, fun c hc hremoved => ?_⟩
    · rw [baseAfter_newBases]
      cases hdeciding : deciding names m.declarations d.name with
      | none => rfl
      | some e => exact hbase hkind e hdeciding
    · obtain ⟨hname, horphaned⟩ := h.listed c hc
      rcases mem_removedCategories.mp hremoved with ⟨hmem, -⟩ | hmem
      · exact hname hmem
      · exact horphaned hmem

/-- What has its key for itself has no namesake that decides for it. -/
theorem outcome_of_unique (h : Unconcerned names m.declarations d)
    (hunique : ∀ e ∈ m.declarations, e.key = d.key → e = d) :
    outcome names external m d = some d := by
  refine (outcome_eq_self_iff h).mpr ⟨?_, ?_⟩
  · rintro hkind ⟨e, he, hname, i, hi, hextended⟩
    -- The namesake is the declaration itself, which mentions nothing removed.
    obtain rfl := hunique e he (by simp [key, hname, hkind, kind_of_extended? hextended])
    exact h.extended i hextended hi
  · intro hkind e hdeciding
    obtain ⟨he, hkey, b, hb, hbase⟩ := deciding_eq_some hdeciding
    obtain rfl := hunique e he (by rw [hkey, key, hkind])
    exact absurd hb (h.base b hbase)

/-- **What mentions nothing removed stays as it is, in its place**, exactly if it is no category
with the name of one on a removed interface, and no interface with the name of others that lose
their bases, of which the last gets a different base. In particular it stays if it has its key for
itself. -/
theorem apply_passes_iff (external : Resolver) {before after : List Declaration}
    (hplace : m.declarations = before ++ d :: after)
    (h : Unconcerned names m.declarations d) :
    ((apply names external m).declarations =
        before.filterMap (outcome names external m) ++
          d :: after.filterMap (outcome names external m) ↔
      (d.kind = .category → ¬ Orphaned names m.declarations d.name) ∧
        (d.kind = .interface → ∀ e, deciding names m.declarations d.name = some e →
          e.base?.bind (survivingBase names (m.index.resolveOr external)) = d.base?)) ∧
      ((∀ e ∈ m.declarations, e.key = d.key → e = d) →
        (apply names external m).declarations =
          before.filterMap (outcome names external m) ++
            d :: after.filterMap (outcome names external m)) := by
  have hpasses : (apply names external m).declarations =
        before.filterMap (outcome names external m) ++
          d :: after.filterMap (outcome names external m) ↔
      outcome names external m d = some d := by
    rw [declarations_apply, hplace, List.filterMap_append, List.append_cancel_left_eq]
    cases houtcome : outcome names external m d with
    | none =>
      -- One declaration is missing, whatever comes behind.
      rw [List.filterMap_cons_none houtcome]
      refine iff_of_false (fun heq => ?_) nofun
      simpa using congrArg List.length heq
    | some d' =>
      rw [List.filterMap_cons_some houtcome, List.cons.injEq, and_iff_left rfl, Option.some.injEq]
  exact ⟨hpasses.trans (outcome_eq_self_iff h), fun hunique =>
    hpasses.mpr (outcome_of_unique h hunique)⟩

namespace Namesakes

/-- What is removed. -/
def gone : List QualifiedName :=
  [⟨"M", "Gone"⟩, ⟨"M", "Middle"⟩]

/-- A category on an interface that stays. -/
def extras : Declaration :=
  ⟨⟨"M", "Extras"⟩, .category { extended := ⟨"M", "Root"⟩ }⟩

/-- An interface whose base stays. -/
def twin : Declaration :=
  ⟨⟨"M", "Twin"⟩, .interface { base := some ⟨"M", "Root"⟩ }⟩

/-- Another interface whose base stays. -/
def leaf : Declaration :=
  ⟨⟨"M", "Leaf"⟩, .interface { base := some ⟨"M", "Root"⟩ }⟩

/-- Before the last interface, a namesake of each of these that mentions something removed. -/
def before : List Declaration :=
  [⟨⟨"M", "Root"⟩, .interface {}⟩, ⟨⟨"M", "Gone"⟩, .interface {}⟩,
    ⟨⟨"M", "Middle"⟩, .interface { base := some ⟨"M", "Root"⟩ }⟩,
    ⟨⟨"M", "Extras"⟩, .category { extended := ⟨"M", "Gone"⟩ }⟩, extras,
    ⟨⟨"M", "Twin"⟩, .interface { base := some ⟨"M", "Gone"⟩ }⟩, twin,
    ⟨⟨"M", "Leaf"⟩, .interface { base := some ⟨"M", "Middle"⟩ }⟩]

/-- A module with names that declarations share. -/
def shared : Module where
  name := "M"
  declarations := before ++ [leaf]

/-- An interface stays as it is where its namesake gets the very base that it has. -/
theorem apply_passes_leaf :
    Unconcerned gone shared.declarations leaf ∧
      deciding gone shared.declarations leaf.name ≠ none ∧
      (apply gone Lookup.empty.find? shared).declarations =
        before.filterMap (outcome gone Lookup.empty.find? shared) ++ [leaf] := by
  have hunconcerned : Unconcerned gone shared.declarations leaf := by decide +kernel
  have hdeciding : deciding gone shared.declarations leaf.name =
      some ⟨⟨"M", "Leaf"⟩, .interface { base := some ⟨"M", "Middle"⟩ }⟩ := by decide +kernel
  refine ⟨hunconcerned, by simp [hdeciding], ?_⟩
  refine (apply_passes_iff Lookup.empty.find? rfl hunconcerned).1.mpr ⟨by decide, ?_⟩
  intro _ e he
  obtain rfl := Option.some.inj (hdeciding.symm.trans he)
  decide +kernel

/-- A category is gone with its namesake, and an interface has got the base of its namesake, though
neither mentions anything that is removed. -/
theorem apply_collateral :
    (extras ∈ shared.declarations ∧ Unconcerned gone shared.declarations extras ∧
      extras ∉ (apply gone Lookup.empty.find? shared).declarations) ∧
    twin ∈ shared.declarations ∧ Unconcerned gone shared.declarations twin ∧
      twin ∉ (apply gone Lookup.empty.find? shared).declarations := by
  decide +kernel

end Namesakes

/-! ### Lists of categories -/

/-- A category of the module has been removed, and this was its name. -/
def CategoryRemoved (names : List QualifiedName) (external : Resolver) (m : Module)
    (c : QualifiedName) : Prop :=
  ∃ e ∈ m.declarations, e.key = ⟨.category, c⟩ ∧ outcome names external m e = none

instance : DecidablePred (CategoryRemoved names external m) := fun c =>
  inferInstanceAs
    (Decidable (∃ e ∈ m.declarations, e.key = ⟨.category, c⟩ ∧ outcome names external m e = none))

theorem categoryRemoved_iff :
    CategoryRemoved names external m c ↔ c ∈ removedCategories names m.declarations := by
  rw [mem_removedCategories]
  constructor
  · rintro ⟨e, he, hkey, houtcome⟩
    have hname : e.name = c := congrArg DeclKey.name hkey
    rcases outcome_eq_none_iff.mp houtcome with hmem | ⟨-, horphaned⟩
    · exact .inl ⟨hname ▸ hmem, e, he, hkey⟩
    · exact .inr (hname ▸ horphaned)
  · rintro (⟨hmem, e, he, hkey⟩ | ⟨e, he, hname, i, hi, hextended⟩)
    · have hname : e.name = c := congrArg DeclKey.name hkey
      exact ⟨e, he, hkey, outcome_eq_none_iff.mpr (.inl (hname ▸ hmem))⟩
    · have hkind := kind_of_extended? hextended
      refine ⟨e, he, by rw [key, hname, hkind], outcome_eq_none_iff.mpr (.inr ⟨hkind, ?_⟩)⟩
      exact ⟨e, he, rfl, i, hi, hextended⟩

/-- A list of categories keeps, in order, those that are not removed from the module. -/
theorem categories_outcome (h : outcome names external m d = some d') :
    d'.categories = d.categories.filter fun c => ¬ CategoryRemoved names external m c := by
  obtain ⟨-, -, rfl⟩ := outcome_cases h
  rw [categories_repaired]
  exact List.filter_congr fun c _ => decide_eq_decide.mpr (not_congr categoryRemoved_iff.symm)

/-- **The lists of categories lose those that are removed from the module**, and keep the others in
order. So they are free of all removed categories and names exactly if the module declares as a
category whatever an interface that stays lists with a removed name. -/
theorem categories_free_iff (names : List QualifiedName) (external : Resolver) (m : Module) :
    (apply names external m).declarations =
        m.declarations.filterMap (outcome names external m) ∧
      (∀ d d', outcome names external m d = some d' →
        d'.categories = d.categories.filter fun c => ¬ CategoryRemoved names external m c) ∧
      ((∀ d' ∈ (apply names external m).declarations, ∀ c ∈ d'.categories,
          c ∉ names ∧ ¬ CategoryRemoved names external m c) ↔
        ∀ d ∈ m.declarations, d.name ∉ names → ∀ c ∈ d.categories, c ∈ names →
          ⟨.category, c⟩ ∈ m.keys) := by
  refine ⟨declarations_apply names external m, fun d d' => categories_outcome, ?_⟩
  rw [declarations_apply]
  constructor
  · intro hfree d hd hname c hc hmem
    have hkind : d.kind ≠ .category := by
      rw [kind_of_mem_categories hc]
      decide
    obtain ⟨d', houtcome⟩ : ∃ d', outcome names external m d = some d' :=
      exists_rewrite hname hkind
    by_contra hundeclared
    have hkept : c ∈ d'.categories := by
      rw [categories_outcome houtcome, List.mem_filter]
      refine ⟨hc, decide_eq_true ?_⟩
      rintro ⟨e, he, hkey, -⟩
      exact hundeclared (List.mem_map.mpr ⟨e, he, hkey⟩)
    exact (hfree d' (List.mem_filterMap.mpr ⟨d, hd, houtcome⟩) c hkept).1 hmem
  · intro hdeclared d' hd' c hc
    obtain ⟨d, hd, houtcome⟩ := List.mem_filterMap.mp hd'
    rw [categories_outcome houtcome, List.mem_filter] at hc
    obtain ⟨hlisted, hstays⟩ := hc
    have hstays := of_decide_eq_true hstays
    refine ⟨fun hmem => hstays ?_, hstays⟩
    obtain ⟨e, he, hkey⟩ :=
      List.mem_map.mp (hdeclared d hd (outcome_cases houtcome).1 c hlisted hmem)
    exact categoryRemoved_iff.mpr (mem_removedCategories.mpr (.inl ⟨hmem, e, he, hkey⟩))

/-- An interface goes on listing a category of another module by its removed name. -/
theorem Abroad.apply_lists_removed :
    ⟨"Kit", "Extras"⟩ ∈ gone ∧
      (∃ d ∈ (apply gone kit.get? app).declarations, ⟨"Kit", "Extras"⟩ ∈ d.categories) ∧
      ¬ ∀ (names : List QualifiedName) (external : Resolver) (m : Module),
        ∀ d ∈ (apply names external m).declarations, ∀ c ∈ d.categories, c ∉ names := by
  have hgone : ⟨"Kit", "Extras"⟩ ∈ gone := by decide
  have hlists :
      ∃ d ∈ (apply gone kit.get? app).declarations, ⟨"Kit", "Extras"⟩ ∈ d.categories := by
    decide +kernel
  refine ⟨hgone, hlists, fun hfree => ?_⟩
  obtain ⟨d, hd, hlisted⟩ := hlists
  exact hfree gone kit.get? app d hd _ hlisted hgone

end Removal

end ObjcMetadata
