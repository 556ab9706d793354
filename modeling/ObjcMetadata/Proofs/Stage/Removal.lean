import Mathlib.Data.List.Nodup
import Mathlib.Data.List.Perm.Subperm
import Mathlib.Logic.Relation
import ObjcMetadata.Proofs.Stage.Revision
import ObjcMetadata.Stage.Removal
/-!
What the removal of declarations leaves.

The search for a surviving base follows the chain of bases and has enough steps: it finds a name
exactly if the chain leads through names to be removed to one that is not
(`survivingBase_eq_some_iff`). The last interface of a name that loses its base decides for all of
that name (`baseAfter_newBases`), and what becomes of a declaration is settled by its name, its kind
and what is planned for the module (`rewrite_eq_some_iff`). Of a module in which no key is repeated,
every declaration that is not removed stays as it is, but that its base is the surviving one and
that names to be removed are taken off its lists (`revision_declarationsAfter`).
-/

namespace ObjcMetadata.Removal

open Relation

/-! ### The nearest base that stays -/

section

variable {names : List QualifiedName} {resolve : Resolver}

/-- A name is to be removed, and it resolves to an interface with this base. -/
def Climbs (names : List QualifiedName) (resolve : Resolver) (current base : QualifiedName) :
    Prop :=
  current ∈ names ∧ (resolve ⟨.interface, current⟩).bind Declaration.base? = some base

theorem leads_of_survivingBaseFrom {steps : Nat} {seen : List QualifiedName}
    {current last : QualifiedName}
    (h : survivingBaseFrom names resolve steps seen current = some last) :
    last ∉ names ∧ ReflTransGen (Climbs names resolve) current last := by
  induction steps generalizing seen current with
  | zero => simp [survivingBaseFrom] at h
  | succ steps ih =>
    unfold survivingBaseFrom at h
    by_cases hcurrent : current ∈ names
    · by_cases hseen : current ∈ seen
      · simp [hcurrent, hseen] at h
      · cases hbase : (resolve ⟨.interface, current⟩).bind Declaration.base? with
        | none => simp [hcurrent, hseen, hbase] at h
        | some base =>
          simp only [hcurrent, not_true_eq_false, ↓reduceIte, hseen, hbase] at h
          obtain ⟨hlast, hleads⟩ := ih h
          exact ⟨hlast, hleads.head ⟨hcurrent, hbase⟩⟩
    · simp only [hcurrent, not_false_eq_true, ↓reduceIte, Option.some.injEq] at h
      exact ⟨h ▸ hcurrent, h ▸ .refl⟩

/-- The chain of bases does not leave names that lead only to each other. -/
theorem mem_of_leads {seen : List QualifiedName} {current last : QualifiedName}
    (hclosed : ∀ s ∈ seen, ∀ t, Climbs names resolve s t → t ∈ seen) (hcurrent : current ∈ seen)
    (hleads : ReflTransGen (Climbs names resolve) current last) : last ∈ seen := by
  induction hleads with
  | refl => exact hcurrent
  | tail _ hclimbs ih => exact hclosed _ ih _ hclimbs

/-- The names seen lead only to each other and to the current one, and they are different names to
be removed, so the steps last until the chain leaves the names or comes to an end. -/
theorem survivingBaseFrom_of_leads {steps : Nat} {seen : List QualifiedName}
    {current last : QualifiedName} (hlast : last ∉ names)
    (hleads : ReflTransGen (Climbs names resolve) current last) (hnodup : seen.Nodup)
    (hseen : seen ⊆ names)
    (hclosed : ∀ s ∈ seen, ∀ t, Climbs names resolve s t → t ∈ seen ∨ t = current)
    (hsteps : seen.length + steps = names.length + 1) :
    survivingBaseFrom names resolve steps seen current = some last := by
  induction steps generalizing seen current with
  | zero =>
    have hle := (hnodup.subperm hseen).length_le
    omega
  | succ steps ih =>
    unfold survivingBaseFrom
    rcases ReflTransGen.cases_head hleads with rfl | ⟨base, ⟨hcurrent, hbase⟩, hrest⟩
    · simp [hlast]
    · have hnew : current ∉ seen := by
        intro hmem
        refine hlast (hseen (mem_of_leads (fun s hs t ht => ?_) hmem hleads))
        rcases hclosed s hs t ht with ht | rfl
        · exact ht
        · exact hmem
      simp only [hcurrent, not_true_eq_false, ↓reduceIte, hnew, hbase]
      refine ih hrest (List.nodup_cons.mpr ⟨hnew, hnodup⟩)
        (List.cons_subset.mpr ⟨hcurrent, hseen⟩) ?_ ?_
      · intro s hs t ht
        rcases List.mem_cons.mp hs with rfl | hs
        · exact .inr (Option.some.inj (ht.2.symm.trans hbase))
        · left
          rcases hclosed s hs t ht with ht | rfl
          · exact List.mem_cons_of_mem current ht
          · exact List.mem_cons_self
      · rw [List.length_cons]
        omega

/-- **The surviving base** is the first name that stays on the chain of bases. -/
theorem survivingBase_eq_some_iff {start last : QualifiedName} :
    survivingBase names resolve start = some last ↔
      last ∉ names ∧ ReflTransGen (Climbs names resolve) start last := by
  constructor
  · intro h
    exact leads_of_survivingBaseFrom h
  · rintro ⟨hlast, hleads⟩
    exact survivingBaseFrom_of_leads hlast hleads List.nodup_nil (List.nil_subset _) (by simp)
      (by simp)

theorem survivingBase_of_not_mem {name : QualifiedName} (h : name ∉ names) :
    survivingBase names resolve name = some name :=
  survivingBase_eq_some_iff.mpr ⟨h, .refl⟩

/-! ### The new bases -/

open Declaration

variable {ds : List Declaration} {d d' e : Declaration} {name : QualifiedName}

/-- The last interface of a name among those whose bases are to be removed. -/
def deciding (names : List QualifiedName) (ds : List Declaration) (name : QualifiedName) :
    Option Declaration :=
  ds.reverse.find? fun e => e.name == name && e.base?.any (· ∈ names)

theorem deciding_eq_some (h : deciding names ds name = some e) :
    e ∈ ds ∧ e.key = ⟨.interface, name⟩ ∧ ∃ b ∈ names, e.base? = some b := by
  have hmem := List.mem_reverse.mp (List.mem_of_find?_eq_some h)
  have hfits := List.find?_some h
  simp only [Bool.and_eq_true, beq_iff_eq, Option.any_eq_true, decide_eq_true_eq] at hfits
  obtain ⟨hname, b, hbase, hb⟩ := hfits
  exact ⟨hmem, by simp [key, hname, kind_of_base? hbase], b, hb, hbase⟩

theorem not_mem_of_deciding (h : deciding names ds d.name = none) (hd : d ∈ ds)
    {b : QualifiedName} (hbase : d.base? = some b) : b ∉ names := by
  have hfits := List.find?_eq_none.mp h d (List.mem_reverse.mpr hd)
  simpa [hbase] using hfits

theorem lookup_newBases (ds : List Declaration) (name : QualifiedName) :
    (newBases names resolve ds).lookup name =
      (ds.find? fun e => e.name == name && e.base?.any (· ∈ names)).map fun e =>
        e.base?.bind (survivingBase names resolve) := by
  induction ds with
  | nil => rfl
  | cons e rest ih =>
    unfold newBases at ih ⊢
    cases hbase : e.base? with
    | none => simp [hbase, ih]
    | some b =>
      by_cases hb : b ∈ names
      · by_cases hname : e.name = name
        · simp [hbase, hb, hname]
        · have hname' : (name == e.name) = false := beq_false_of_ne (Ne.symm hname)
          simp [hbase, hb, hname, hname', ih, List.lookup_cons]
      · simp [hbase, hb, ih]

/-- **An interface gets the base of the deciding one**, or else it keeps its own. -/
theorem baseAfter_newBases (ds : List Declaration) (name : QualifiedName)
    (base : Option QualifiedName) :
    baseAfter (newBases names resolve ds) name base =
      match deciding names ds name with
      | some e => e.base?.bind (survivingBase names resolve)
      | none => base := by
  have hreverse : (newBases names resolve ds).reverse = newBases names resolve ds.reverse := by
    unfold newBases
    rw [List.filterMap_reverse]
  unfold baseAfter deciding
  rw [hreverse, lookup_newBases]
  cases ds.reverse.find? _ <;> rfl

/-- If no key is repeated, an interface decides for itself. -/
theorem baseAfter_eq (hkeys : (ds.map key).Nodup) (hd : d ∈ ds) (hkind : d.kind = .interface) :
    baseAfter (newBases names resolve ds) d.name d.base? =
      d.base?.bind (survivingBase names resolve) := by
  rw [baseAfter_newBases]
  cases hdeciding : deciding names ds d.name with
  | none =>
    cases hbase : d.base? with
    | none => rfl
    | some b => exact (survivingBase_of_not_mem (not_mem_of_deciding hdeciding hd hbase)).symm
  | some e =>
    obtain ⟨he, hkey, -⟩ := deciding_eq_some hdeciding
    obtain rfl : e = d := List.inj_on_of_nodup_map hkeys he hd (by rw [hkey, key, hkind])
    rfl

/-! ### What stays -/

section

variable (names categories : List QualifiedName)
  (bases : List (QualifiedName × Option QualifiedName)) (d : Declaration)

@[simp] theorem key_repaired : (repaired names categories bases d).key = d.key := by
  obtain ⟨name, body⟩ := d
  cases body <;> rfl

@[simp] theorem name_repaired : (repaired names categories bases d).name = d.name :=
  congrArg DeclKey.name (key_repaired names categories bases d)

@[simp] theorem members?_repaired :
    (repaired names categories bases d).members? = d.members? := by
  obtain ⟨name, body⟩ := d
  cases body <;> rfl

@[simp] theorem ownTypes_repaired :
    (repaired names categories bases d).ownTypes = d.ownTypes := by
  obtain ⟨name, body⟩ := d
  cases body <;> rfl

@[simp] theorem map_extended_repaired :
    (repaired names categories bases d).category?.map (·.extended) =
      d.category?.map (·.extended) := by
  obtain ⟨name, body⟩ := d
  cases body <;> rfl

@[simp] theorem protocols_repaired :
    (repaired names categories bases d).protocols = d.protocols.filter (· ∉ names) := by
  obtain ⟨name, body⟩ := d
  cases body <;> rfl

@[simp] theorem base?_repaired :
    (repaired names categories bases d).base? =
      if d.kind = .interface then baseAfter bases d.name d.base? else none := by
  obtain ⟨name, body⟩ := d
  cases body <;> rfl

theorem repaired_nil : repaired [] [] [] d = d := by
  obtain ⟨name, body⟩ := d
  cases body <;> simp [repaired, baseAfter]

theorem declDemand_repaired (hkind : d.kind ≠ .interface) :
    Support.declDemand (repaired names categories bases d) = Support.declDemand d := by
  obtain ⟨name, body⟩ := d
  cases body with
  | interface i => exact absurd rfl hkind
  | _ => rfl

end

section

variable {categories : List QualifiedName} {bases : List (QualifiedName × Option QualifiedName)}

/-- **Whether a declaration goes** is decided by its name and kind alone. If it stays, it is
repaired. -/
theorem rewrite_eq_some_iff :
    rewrite names categories bases d = some d' ↔
      d.name ∉ names ∧ (d.kind = .category → d.name ∉ categories) ∧
        d' = repaired names categories bases d := by
  rw [rewrite, ite_eq_iff]
  simp only [reduceCtorEq, and_false, false_or, Option.some.injEq, not_or, not_and, and_assoc,
    eq_comm]

theorem exists_rewrite (hname : d.name ∉ names) (hkind : d.kind ≠ .category) :
    ∃ d', rewrite names categories bases d = some d' :=
  ⟨_, rewrite_eq_some_iff.mpr ⟨hname, fun h => absurd h hkind, rfl⟩⟩

/-- What a declaration that is not removed keeps. -/
structure Retained (names : List QualifiedName) (d d' : Declaration) : Prop where
  key : d'.key = d.key
  types : d'.ownTypes = d.ownTypes
  members : d'.members? = d.members?
  protocols : d'.protocols = d.protocols.filter (· ∉ names)
  extended : d'.category?.map (·.extended) = d.category?.map (·.extended)

theorem of_rewrite (h : rewrite names categories bases d = some d') : Retained names d d' := by
  obtain ⟨-, -, rfl⟩ := rewrite_eq_some_iff.mp h
  constructor <;> simp

theorem amended_rewrite {added : List TypeId} (hkeys : (ds.map key).Nodup) (hd : d ∈ ds)
    (h : rewrite names categories (newBases names resolve ds) d = some d') :
    d.name ∉ names ∧ Amended (survivingBase names resolve) added d d' := by
  obtain ⟨hname, -, rfl⟩ := rewrite_eq_some_iff.mp h
  refine ⟨hname, ?_⟩
  constructor
  case key => exact key_repaired names categories _ d
  case base =>
    rw [base?_repaired]
    by_cases hkind : d.kind = .interface
    · rw [if_pos hkind, baseAfter_eq hkeys hd hkind]
    · rw [if_neg hkind, base?_of_kind hkind, Option.bind_none]
  case needs => exact declDemand_repaired names categories _ d
  case types =>
    intro id hid
    rw [ownTypes_repaired] at hid
    exact .inl hid

end

/-- Every declaration is treated by itself and in its place. -/
theorem declarationsAfter_eq (names : List QualifiedName) (resolve : Resolver)
    (ds : List Declaration) :
    declarationsAfter names resolve ds =
      ds.filterMap (rewrite names (removedCategories names ds) (newBases names resolve ds)) := by
  unfold declarationsAfter
  split
  · next hnames =>
    -- Without names nothing is planned, and so nothing is done.
    obtain rfl := List.isEmpty_iff.mp hnames
    have hcategories : removedCategories [] ds = [] := by
      unfold removedCategories
      exact List.filterMap_eq_nil_iff.mpr fun d _ => by cases d.category? <;> simp
    have hbases : newBases [] resolve ds = [] := by
      unfold newBases
      exact List.filterMap_eq_nil_iff.mpr fun d _ => by cases d.base? <;> simp
    have hsame : rewrite [] [] [] = some := by
      funext d
      rw [rewrite, if_neg (by simp), repaired_nil]
    rw [hcategories, hbases, hsame, List.filterMap_some]
  · rfl

/-- **The removal of names revises a module in which no key is repeated**: the names are gone, and
bases with these names are replaced by the surviving ones. -/
theorem revision_declarationsAfter (hkeys : (ds.map key).Nodup) (added : List TypeId) :
    Revision (fun d d' => d.name ∉ names ∧ Amended (survivingBase names resolve) added d d')
      (fun key => key.name ∉ names) ds (declarationsAfter names resolve ds) := by
  rw [declarationsAfter_eq]
  refine Revision.filterMap (fun d hd d' hrewrite => ?_) fun d _ hname hkind =>
    exists_rewrite hname hkind
  obtain ⟨hname, hamended⟩ := amended_rewrite hkeys hd hrewrite
  exact ⟨⟨hname, hamended⟩, hamended.key⟩

end

end ObjcMetadata.Removal
