import ObjcMetadata.Proofs.Declaration.Closure
import ObjcMetadata.Proofs.Stage.Change
/-!
What the removal of inherited members loses.

A member is dropped where something above has the same one. What is above is read off the module as
it was, so declarations that are above each other may drop a member for the sake of each other, and
nobody is left with it. That is a `Circle`: suppliers of one member, at least two of them, all of the
module and each above each other, with no other supplier above them. Where there is no circle every
declaration retains each of its members: it keeps it, or it inherits it in what the pass leaves
(`apply_retains_iff`). A member is lost only in a circle (`retains_or_circle`), and each circle loses
one (`Circle.exists_lost`), such as two interfaces that are each other's base
(`apply_circular_loses`). That parents form a loop does no harm by itself.
-/

namespace ObjcMetadata.Inherited

open Relation Declaration Lookup

/-! ### What is handed down -/

/-- The second key is reached from the first by going from declarations to their parents. -/
def Above (lookup : Lookup) : DeclKey → DeclKey → Prop :=
  TransGen (lookup.Linked parents)

/-- A key resolves to a declaration that has a member that is the same. -/
def Supplies (lookup : Lookup) (x : Member) (key : DeclKey) : Prop :=
  ∃ d, lookup.find? key = some d ∧ d.Provides x

/-- A declaration has something above it that supplies a member. -/
def Inherits (lookup : Lookup) (d : Declaration) (x : Member) : Prop :=
  ∃ p ∈ d.parents, ∃ key, ReflTransGen (lookup.Linked parents) p key ∧ Supplies lookup x key

/-- What a declaration has the other one has or inherits. -/
def Retains (lookup : Lookup) (d d' : Declaration) : Prop :=
  ∀ x ∈ d.entries, d'.Provides x ∨ Inherits lookup d' x

/-- A declaration of a module and others above it have the same member, and whatever above it has
the member is of the module and has the declaration above it. -/
structure Circle (cx : Context) (m : Module) (x : Member) (key : DeclKey) : Prop where
  supplies : Supplies (cx.lookup m) x key
  shared : ∃ other, other ≠ key ∧ Above (cx.lookup m) key other ∧ Supplies (cx.lookup m) x other
  closed : ∀ other, Above (cx.lookup m) key other → Supplies (cx.lookup m) x other →
    other ∈ m.declarations.map Declaration.key ∧ Above (cx.lookup m) other key

variable {cx : Context} {m : Module} {lookup : Lookup} {d : Declaration} {x y : Member}
  {key other : DeclKey}

theorem Supplies.of_sameAs (h : Supplies lookup y key) (hsame : x.sameAs y = true) :
    Supplies lookup x key := by
  obtain ⟨d, hfind, hprovides⟩ := h
  exact ⟨d, hfind, hprovides.of_sameAs hsame⟩

/-- What drops a member inherits it. -/
theorem mem_drop_or_inherits (lookup : Lookup) (hx : x ∈ d.entries) :
    x ∈ (drop lookup d).entries ∨ ∃ key, key ≠ d.key ∧ Supplies lookup x key ∧
      ∃ p ∈ d.parents, ReflTransGen (lookup.Linked parents) p key := by
  refine (mem_drop_or_reached hx).imp_right ?_
  rintro ⟨e, he, hprovides⟩
  obtain ⟨key, hne, hfind, hleads⟩ := leads_of_mem_reached he
  exact ⟨key, hne, ⟨e, hfind, hprovides⟩, hleads⟩

theorem above_of_leads (hfind : lookup.find? key = some d) {p : DeclKey} (hp : p ∈ d.parents)
    (hleads : ReflTransGen (lookup.Linked parents) p other) : Above lookup key other :=
  .head' (mem_linked_iff.mpr ⟨d, hfind, hp⟩) hleads

/-- Only interfaces and protocols are above anything. -/
theorem kind_of_above (h : Above lookup key other) : other.kind ≠ .category := by
  obtain ⟨last, -, hlinked⟩ := TransGen.tail'_iff.mp h
  obtain ⟨d, -, hparent⟩ := mem_linked_iff.mp hlinked
  rcases kind_of_parent hparent with hkind | hkind <;> simp [hkind]

/-! ### What the pass leaves -/

/-- What a key of the module resolved to has dropped its inherited members, and all else resolves
as before. -/
theorem find?_apply (cx : Context) (m : Module) (key : DeclKey) :
    (cx.lookup (apply cx m)).find? key =
      ((m.declarations.find? (·.key == key)).map (drop (cx.lookup m))).or
        (cx.external.find? key) := by
  have hfind : (cx.lookup (apply cx m)).find? key =
      ((apply cx m).declarations.find? (·.key == key)).or (cx.external.find? key) :=
    Unsupported.find?_view cx (apply cx m) key
  have hkey : (fun d : Declaration => d.key == key) ∘ drop (cx.lookup m) = (·.key == key) := by
    funext d
    simp
  rw [hfind]
  unfold apply
  rw [List.find?_map, hkey]

theorem find?_lookup (cx : Context) (m : Module) (key : DeclKey) :
    (cx.lookup m).find? key =
      (m.declarations.find? (·.key == key)).or (cx.external.find? key) :=
  Unsupported.find?_view cx m key

/-- What the pass leaves has the same parents. -/
theorem linked_apply (cx : Context) (m : Module) :
    (cx.lookup (apply cx m)).Linked parents = (cx.lookup m).Linked parents := by
  have hlinked : (cx.lookup (apply cx m)).linked parents = (cx.lookup m).linked parents := by
    funext key
    unfold linked
    rw [find?_apply, find?_lookup]
    cases m.declarations.find? (·.key == key) with
    | none => rfl
    | some d => exact parents_drop _ d
  unfold Linked
  rw [hlinked]

theorem find?_of_apply {d' : Declaration}
    (h : (cx.lookup (apply cx m)).find? key = some d') :
    ∃ d, (cx.lookup m).find? key = some d ∧ (d' = d ∨ d' = drop (cx.lookup m) d) := by
  rw [find?_apply] at h
  rw [find?_lookup]
  cases hown : m.declarations.find? (·.key == key) with
  | none =>
    rw [hown] at h
    exact ⟨d', h, .inl rfl⟩
  | some d =>
    rw [hown] at h
    exact ⟨d, rfl, .inr (Option.some.inj h).symm⟩

/-- What the pass leaves supplies only what was supplied before. -/
theorem Supplies.of_apply (h : Supplies (cx.lookup (apply cx m)) x key) :
    Supplies (cx.lookup m) x key := by
  obtain ⟨d', hfind, y, hy, hsame⟩ := h
  obtain ⟨d, hbefore, rfl | rfl⟩ := find?_of_apply hfind
  · exact ⟨_, hbefore, y, hy, hsame⟩
  · exact ⟨d, hbefore, y, mem_of_mem_drop hy, hsame⟩

/-- **Who supplied a member still does**, or it is of the module and another above it supplied the
member too. -/
theorem Supplies.apply_or (h : Supplies (cx.lookup m) x key) :
    Supplies (cx.lookup (apply cx m)) x key ∨ key ∈ m.declarations.map Declaration.key ∧
      ∃ other, other ≠ key ∧ Above (cx.lookup m) key other ∧ Supplies (cx.lookup m) x other := by
  obtain ⟨d, hfind, y, hy, hsame⟩ := h
  have hfind' := hfind
  rw [find?_lookup, Option.or_eq_some_iff] at hfind'
  rcases hfind' with hown | ⟨hnone, hexternal⟩
  · have hkey : d.key = key := by simpa using List.find?_some hown
    rcases mem_drop_or_inherits (cx.lookup m) hy with
      hkept | ⟨other, hne, hsupplies, p, hp, hleads⟩
    · refine .inl ⟨drop (cx.lookup m) d, ?_, y, hkept, hsame⟩
      rw [find?_apply, hown]
      rfl
    · refine .inr ⟨?_, other, hkey ▸ hne, above_of_leads hfind hp hleads, ?_⟩
      · exact hkey ▸ List.mem_map_of_mem (List.mem_of_find?_eq_some hown)
      · exact hsupplies.of_sameAs hsame
  · refine .inl ⟨d, ?_, y, hy, hsame⟩
    rw [find?_apply, hnone, hexternal]
    rfl

/-- Who has another supplier above it that is a declaration of the module supplies no more. -/
theorem not_supplies_apply (hkind : key.kind ≠ .category)
    (hdeclared : key ∈ m.declarations.map Declaration.key) (hne : other ≠ key)
    (habove : Above (cx.lookup m) key other) (hother : Supplies (cx.lookup m) x other) :
    ¬ Supplies (cx.lookup (apply cx m)) x key := by
  rintro ⟨d', hfind, y, hy, hsame⟩
  obtain ⟨d, -, rfl, hown⟩ := exists_find?_key hdeclared
  rw [find?_apply, hown] at hfind
  obtain rfl : drop (cx.lookup m) d = d' := Option.some.inj hfind
  obtain ⟨e, hfinde, hprovides⟩ := hother
  have hfindd : (cx.lookup m).find? d.key = some d := by
    rw [find?_lookup, hown]
    rfl
  refine ((mem_entries_drop hkind).mp hy).2 e ?_ (hprovides.of_sameAs (Member.sameAs_symm hsame))
  exact mem_reached_of_leads hfindd hfinde hne habove.to_reflTransGen

/-- The pass leaves of each declaration what it does not inherit. -/
theorem forall₂_apply_iff {R : Declaration → Declaration → Prop} :
    List.Forall₂ R m.declarations (apply cx m).declarations ↔
      ∀ d ∈ m.declarations, R d (drop (cx.lookup m) d) := by
  unfold apply
  rw [List.forall₂_map_right_iff, List.forall₂_same]

/-! ### Circles -/

/-- **A member is lost only in a circle** above the declaration that had it. -/
theorem retains_or_circle (hx : x ∈ d.entries) :
    (drop (cx.lookup m) d).Provides x ∨
      Inherits (cx.lookup (apply cx m)) (drop (cx.lookup m) d) x ∨
      ∃ p ∈ d.parents, ∃ key, ReflTransGen ((cx.lookup m).Linked parents) p key ∧
        Circle cx m x key := by
  rcases mem_drop_or_inherits (cx.lookup m) hx with hkept | ⟨start, -, hstart, p, hp, hleads⟩
  · exact .inl (provides_of_mem hkept)
  right
  by_cases hinherits : Inherits (cx.lookup (apply cx m)) (drop (cx.lookup m) d) x
  · exact .inl hinherits
  right
  -- Whoever supplied the member has dropped it for the sake of another.
  have hnext : ∀ key, ReflTransGen ((cx.lookup m).Linked parents) start key →
      Supplies (cx.lookup m) x key → key ∈ m.declarations.map Declaration.key ∧
        ∃ other, other ≠ key ∧ Above (cx.lookup m) key other ∧
          Supplies (cx.lookup m) x other := by
    intro key hkey hsupplies
    refine hsupplies.apply_or.resolve_left fun hstill => hinherits ?_
    refine ⟨p, (parents_drop _ d).symm ▸ hp, key, ?_, hstill⟩
    rw [linked_apply]
    exact hleads.trans hkey
  have hkeys : ∀ key, Supplies (cx.lookup m) x key → key ∈ (cx.lookup m).keys.toFinset := by
    rintro key ⟨d, hfind, -⟩
    exact List.mem_toFinset.mpr ((cx.lookup m).mem_keys key (by rw [hfind]; rfl))
  obtain ⟨key, hkey, hsupplies, hback⟩ :=
    Reach.exists_recurrent (cx.lookup m).keys.toFinset hkeys hstart fun key hkey hsupplies => by
      obtain ⟨-, other, -, habove, hother⟩ := hnext key hkey hsupplies
      exact ⟨other, habove, hother⟩
  refine ⟨p, hp, key, hleads.trans hkey, hsupplies, (hnext key hkey hsupplies).2, ?_⟩
  intro other habove hother
  exact ⟨(hnext other (hkey.trans habove.to_reflTransGen) hother).1, hback other habove hother⟩

/-- In a circle everyone drops the member. -/
theorem Circle.not_supplies_apply (h : Circle cx m x key) (habove : Above (cx.lookup m) key other)
    (hother : Supplies (cx.lookup m) x other) : ¬ Supplies (cx.lookup (apply cx m)) x other := by
  obtain ⟨hdeclared, hback⟩ := h.closed other habove hother
  by_cases heq : other = key
  · obtain ⟨third, hne, hthird, hsupplies⟩ := h.shared
    exact Inherited.not_supplies_apply (kind_of_above habove) hdeclared (heq ▸ hne)
      (heq ▸ hthird) hsupplies
  · exact Inherited.not_supplies_apply (kind_of_above habove) hdeclared (Ne.symm heq) hback
      h.supplies

theorem Circle.above_self (h : Circle cx m x key) : Above (cx.lookup m) key key := by
  obtain ⟨other, -, habove, hother⟩ := h.shared
  exact habove.trans (h.closed other habove hother).2

/-- **A circle loses its member.** -/
theorem Circle.exists_lost (h : Circle cx m x key) :
    ∃ d ∈ m.declarations, ∃ y ∈ d.entries, ¬ (drop (cx.lookup m) d).Provides y ∧
      ¬ Inherits (cx.lookup (apply cx m)) (drop (cx.lookup m) d) y := by
  have hself := h.above_self
  obtain ⟨d, hd, rfl, hown⟩ := exists_find?_key (h.closed key hself h.supplies).1
  have hfind : (cx.lookup m).find? d.key = some d := by
    rw [find?_lookup, hown]
    rfl
  obtain ⟨e, hfind', y, hy, hsame⟩ := h.supplies
  obtain rfl : d = e := Option.some.inj (hfind.symm.trans hfind')
  refine ⟨d, hd, y, hy, fun hprovides => ?_, ?_⟩
  · refine h.not_supplies_apply hself h.supplies ⟨drop (cx.lookup m) d, ?_, ?_⟩
    · rw [find?_apply, hown]
      rfl
    · exact hprovides.of_sameAs hsame
  · rintro ⟨p, hp, other, hleads, hsupplies⟩
    rw [parents_drop] at hp
    rw [linked_apply] at hleads
    have hsupplies' := hsupplies.of_sameAs hsame
    exact h.not_supplies_apply (above_of_leads hfind hp hleads) hsupplies'.of_apply hsupplies'

/-- A circle has two different declarations of the module, each above the other. -/
theorem Circle.exists_pair (h : Circle cx m x key) :
    ∃ other, other ≠ key ∧ other ∈ m.declarations.map Declaration.key ∧
      Above (cx.lookup m) key other ∧ Above (cx.lookup m) other key ∧
        Supplies (cx.lookup m) x other := by
  obtain ⟨other, hne, habove, hother⟩ := h.shared
  obtain ⟨hdeclared, hback⟩ := h.closed other habove hother
  exact ⟨other, hne, hdeclared, habove, hback, hother⟩

/-- **Every declaration has or inherits, in what the pass leaves, all members that it had exactly if
there is no circle.** In particular it does if no two different declarations of the module, each
above the other, have the same member. -/
theorem apply_retains_iff (cx : Context) (m : Module) :
    (List.Forall₂ (Retains (cx.lookup (apply cx m))) m.declarations (apply cx m).declarations ↔
      ∀ x key, ¬ Circle cx m x key) ∧
    ((∀ x, ∀ a ∈ m.declarations.map Declaration.key, ∀ b ∈ m.declarations.map Declaration.key,
        a ≠ b → Above (cx.lookup m) a b → Above (cx.lookup m) b a →
          ¬ (Supplies (cx.lookup m) x a ∧ Supplies (cx.lookup m) x b)) →
      List.Forall₂ (Retains (cx.lookup (apply cx m))) m.declarations
        (apply cx m).declarations) := by
  have hretains : (∀ x key, ¬ Circle cx m x key) →
      ∀ d ∈ m.declarations, Retains (cx.lookup (apply cx m)) d (drop (cx.lookup m) d) := by
    intro hnone d _ x hx
    rcases retains_or_circle hx with
      hkept | hinherits | ⟨-, -, key, -, hcircle⟩
    · exact .inl hkept
    · exact .inr hinherits
    · exact absurd hcircle (hnone x key)
  refine ⟨⟨fun hall x key hcircle => ?_, fun hnone => forall₂_apply_iff.mpr (hretains hnone)⟩, ?_⟩
  · obtain ⟨d, hd, y, hy, hdropped, hlost⟩ := hcircle.exists_lost
    exact (forall₂_apply_iff.mp hall d hd y hy).elim hdropped hlost
  · refine fun hapart => forall₂_apply_iff.mpr (hretains fun x key hcircle => ?_)
    obtain ⟨other, hne, hdeclared, habove, hback, hother⟩ := hcircle.exists_pair
    have hkey := (hcircle.closed key hcircle.above_self hcircle.supplies).1
    exact hapart x key hkey other hdeclared (Ne.symm hne) habove hback ⟨hcircle.supplies, hother⟩

/-! ### Bases that are each other's -/

/-- A method that interfaces have which inherit from each other. -/
def size : Method :=
  ⟨"size", [.ofPrimitive .int], {}⟩

/-- Two interfaces, each the base of the other, that have the same method. -/
def circular : Module where
  name := "M"
  declarations :=
    [⟨⟨"M", "A"⟩, .interface { base := some ⟨"M", "B"⟩, members := { instanceMethods := [size] } }⟩,
      ⟨⟨"M", "B"⟩, .interface { base := some ⟨"M", "A"⟩, members := { instanceMethods := [size] } }⟩]

/-- The context in which nothing is outside of the module. -/
def isolated : Context :=
  ⟨Pool.initial, Lookup.empty⟩

/-- Each of the two drops the method for the sake of the other. -/
theorem apply_circular_loses :
    (∀ d ∈ circular.declarations, .instanceMethod size ∈ d.entries) ∧
      (∀ d ∈ (apply isolated circular).declarations, d.entries = []) ∧
      ¬ List.Forall₂ (Retains (isolated.lookup (apply isolated circular))) circular.declarations
        (apply isolated circular).declarations := by
  have hsize : ∀ d ∈ circular.declarations, .instanceMethod size ∈ d.entries := by decide +kernel
  have hempty : ∀ d ∈ (apply isolated circular).declarations, d.entries = [] := by decide +kernel
  have hprovides : ∀ d ∈ (apply isolated circular).declarations, ∀ x, ¬ d.Provides x := by
    rintro d hd x ⟨y, hy, -⟩
    rw [hempty d hd] at hy
    cases hy
  refine ⟨hsize, hempty, fun hall => ?_⟩
  obtain ⟨d, hd⟩ : ∃ d, d ∈ circular.declarations := ⟨_, List.mem_cons_self⟩
  rcases forall₂_apply_iff.mp hall d hd _ (hsize d hd) with
    hkept | ⟨p, hp, key, hleads, e, hfind, hsupplied⟩
  · exact hprovides _ (List.mem_map_of_mem hd) _ hkept
  · rw [find?_lookup, Option.or_eq_some_iff] at hfind
    rcases hfind with hown | ⟨-, hexternal⟩
    · exact hprovides e (List.mem_of_find?_eq_some hown) _ hsupplied
    · cases hexternal

end ObjcMetadata.Inherited
