import ObjcMetadata.Proofs.Sequence
import ObjcMetadata.Proofs.Stage.Change
/-!
How exception rules act one after the other.

Two rules commute, wherever a module repeats names, unless they `Conflict`: they give one class
method different return types, and then the later one wins. Either way a rule that has acted acts
no more after any other (`act_act_act`), which is why a list of rules that is applied a second time
leaves the declarations as they are, although rules of the list may undo each other meanwhile
(`foldl_act_foldl_act`).
-/

namespace ObjcMetadata.ExceptionRule

open Declaration

variable {ds : List Declaration} {d : Declaration} {r s : ExceptionRule}
  {category category' interface interface' : QualifiedName} {selector selector' : String}
  {type type' : TypeId}

/-! ### What a rule does to declarations -/

/-- An interface with another return type of a class method. -/
def override (selector : String) (type : TypeId) (i : Interface) : Interface :=
  { i with members := i.members.modifyClassMethod selector (withReturnType type) }

/-- The declarations that a rule leaves. -/
def act (ds : List Declaration) : ExceptionRule → List Declaration
  | .removeCategory category interface =>
    (ds.filter fun d => !isCategoryOn category interface d).map (dropCategory category interface)
  | .overrideReturn interface selector type => modifyInterface interface (override selector type) ds

theorem declarations_apply (m : Module) (r : ExceptionRule) :
    (apply m r).declarations = act m.declarations r := by
  cases r <;> rfl

theorem declarations_applyAll (rules : List ExceptionRule) (m : Module) :
    (applyAll rules m).declarations = rules.foldl act m.declarations :=
  (List.foldl_hom Module.declarations fun m r => (declarations_apply m r).symm).symm

/-! ### Return types -/

/-- The later return type wins. -/
theorem withReturnType_withReturnType (type type' : TypeId) (m : Method) :
    withReturnType type' (withReturnType type m) = withReturnType type' m := by
  obtain ⟨selector, signature, flags⟩ := m
  cases signature <;> rfl

theorem override_override (selector : String) (type type' : TypeId) (i : Interface) :
    override selector type' (override selector type i) = override selector type' i := by
  have hselector : ∀ m, ((withReturnType type m).selector == selector) = (m.selector == selector) :=
    fun m => congrArg (· == selector) (selector_withReturnType type m)
  unfold override Members.modifyClassMethod
  rw [modifyFirst_modifyFirst hselector]
  simp only [withReturnType_withReturnType]

theorem override_comm (h : selector = selector' → type = type') (i : Interface) :
    override selector' type' (override selector type i) =
      override selector type (override selector' type' i) := by
  unfold override Members.modifyClassMethod
  simp only [Interface.mk.injEq, Members.mk.injEq, true_and, and_true]
  refine modifyFirst_comm (fun m => by simp) (fun m => by simp) fun m hm hm' => ?_
  have hselector : selector = selector' := (beq_iff_eq.mp hm).symm.trans (beq_iff_eq.mp hm')
  rw [h hselector]

/-! ### Lists of categories -/

/-- The interface of a name does not list a category, if it is the one that is meant. -/
def unlist (category interface name : QualifiedName) (i : Interface) : Interface :=
  if name = interface then { i with categories := i.categories.filter (· ≠ category) } else i

theorem dropCategory_eq (category interface : QualifiedName) (d : Declaration) :
    dropCategory category interface d = d.mapInterface (unlist category interface d.name) := by
  obtain ⟨name, body⟩ := d
  cases body with
  | interface i =>
    unfold dropCategory mapInterface unlist
    split
    · next heq =>
      cases heq
      split <;> rfl
    · next hnone => exact absurd rfl (hnone i)
  | _ => rfl

theorem unlist_unlist (category interface name : QualifiedName) (i : Interface) :
    unlist category interface name (unlist category interface name i) =
      unlist category interface name i := by
  unfold unlist
  split
  · simp [List.filter_filter]
  · rfl

theorem unlist_comm (name : QualifiedName) (i : Interface) :
    unlist category' interface' name (unlist category interface name i) =
      unlist category interface name (unlist category' interface' name i) := by
  unfold unlist
  split
  · split
    · simp [List.filter_filter, Bool.and_comm]
    · rfl
  · rfl

theorem unlist_override (name : QualifiedName) (i : Interface) :
    unlist category interface name (override selector type i) =
      override selector type (unlist category interface name i) := by
  unfold unlist
  split <;> rfl

/-! ### Interfaces and categories -/

@[simp] theorem isCategoryOn_mapInterface (change : Interface → Interface) (d : Declaration) :
    isCategoryOn category interface (d.mapInterface change) =
      isCategoryOn category interface d := by
  obtain ⟨name, body⟩ := d
  cases body <;> rfl

theorem isCategoryOn_of_kind (h : d.kind = .interface) :
    isCategoryOn category interface d = false := by
  obtain ⟨name, body⟩ := d
  cases body with
  | interface i => rfl
  | _ => cases h

/-- Which categories are removed does not depend on what has been taken off lists. -/
theorem filter_map_dropCategory (category interface category' interface' : QualifiedName)
    (ds : List Declaration) :
    (ds.map (dropCategory category' interface')).filter
        (fun d => !isCategoryOn category interface d) =
      (ds.filter fun d => !isCategoryOn category interface d).map
        (dropCategory category' interface') := by
  rw [List.filter_map]
  refine congrArg (List.map _) (List.filter_congr fun d _ => ?_)
  rw [Function.comp_apply, dropCategory_eq, isCategoryOn_mapInterface]

/-! ### Two rules -/

/-- Two rules give one class method different return types. -/
def Conflict : ExceptionRule → ExceptionRule → Prop
  | .overrideReturn interface selector type, .overrideReturn interface' selector' type' =>
    interface = interface' ∧ selector = selector' ∧ type ≠ type'
  | _, _ => False

/-- A removal and an override do not see each other. -/
theorem act_removeCategory_overrideReturn (ds : List Declaration) :
    act (act ds (.removeCategory category interface)) (.overrideReturn interface' selector type) =
      act (act ds (.overrideReturn interface' selector type))
        (.removeCategory category interface) := by
  simp only [act, modifyInterface]
  rw [filter_modifyFirst, map_modifyFirst_comm]
  · intro d
    rw [dropCategory_eq, key_mapInterface]
  · intro d _
    simp only [dropCategory_eq, mapInterface_mapInterface, name_mapInterface, unlist_override]
  · intro d
    rw [isCategoryOn_mapInterface]
  · intro d hd
    rw [isCategoryOn_of_kind (congrArg DeclKey.kind (beq_iff_eq.mp hd))]
    rfl

theorem act_removeCategory_comm (ds : List Declaration) :
    act (act ds (.removeCategory category interface)) (.removeCategory category' interface') =
      act (act ds (.removeCategory category' interface')) (.removeCategory category interface) := by
  simp only [act, filter_map_dropCategory, List.map_map, List.filter_filter, Bool.and_comm]
  refine List.map_congr_left fun d _ => ?_
  simp only [Function.comp_apply, dropCategory_eq, mapInterface_mapInterface, name_mapInterface,
    unlist_comm]

theorem act_overrideReturn_comm
    (h : interface = interface' → selector = selector' → type = type') (ds : List Declaration) :
    act (act ds (.overrideReturn interface selector type))
        (.overrideReturn interface' selector' type') =
      act (act ds (.overrideReturn interface' selector' type'))
        (.overrideReturn interface selector type) := by
  simp only [act, modifyInterface]
  refine modifyFirst_comm (fun d => by simp) (fun d => by simp) fun d hd hd' => ?_
  have hkey := (beq_iff_eq.mp hd).symm.trans (beq_iff_eq.mp hd')
  have hinterface : interface = interface' := congrArg DeclKey.name hkey
  simp only [mapInterface_mapInterface, override_comm (h hinterface)]

/-- **Rules that do not conflict commute.** -/
theorem act_comm (h : ¬ Conflict r s) (ds : List Declaration) :
    act (act ds r) s = act (act ds s) r := by
  cases r with
  | removeCategory category interface =>
    cases s with
    | removeCategory category' interface' => exact act_removeCategory_comm ds
    | overrideReturn interface' selector type => exact act_removeCategory_overrideReturn ds
  | overrideReturn interface selector type =>
    cases s with
    | removeCategory category interface' => exact (act_removeCategory_overrideReturn ds).symm
    | overrideReturn interface' selector' type' =>
      refine act_overrideReturn_comm (fun hinterface hselector => ?_) ds
      by_contra hne
      exact h ⟨hinterface, hselector, hne⟩

/-- Of two overrides of one method the later wins. -/
theorem act_overrideReturn_overrideReturn (ds : List Declaration) :
    act (act ds (.overrideReturn interface selector type))
        (.overrideReturn interface selector type') =
      act ds (.overrideReturn interface selector type') := by
  simp only [act, modifyInterface]
  rw [modifyFirst_modifyFirst fun d => by simp]
  simp only [mapInterface_mapInterface, override_override]

theorem act_of_conflict (h : Conflict r s) (ds : List Declaration) :
    act (act ds r) s = act ds s := by
  cases r with
  | removeCategory category interface => cases h
  | overrideReturn interface selector type =>
    cases s with
    | removeCategory category interface' => cases h
    | overrideReturn interface' selector' type' =>
      obtain ⟨rfl, rfl, -⟩ := h
      exact act_overrideReturn_overrideReturn ds

theorem act_act (ds : List Declaration) (r : ExceptionRule) : act (act ds r) r = act ds r := by
  cases r with
  | removeCategory category interface =>
    simp only [act, filter_map_dropCategory, List.map_map, List.filter_filter, Bool.and_self]
    refine List.map_congr_left fun d _ => ?_
    simp only [Function.comp_apply, dropCategory_eq, mapInterface_mapInterface, name_mapInterface,
      unlist_unlist]
  | overrideReturn interface selector type => exact act_overrideReturn_overrideReturn ds

/-- **A rule that has acted acts no more after any other.** -/
theorem act_act_act (ds : List Declaration) (r s : ExceptionRule) :
    act (act (act ds r) s) r = act (act ds s) r := by
  by_cases h : Conflict r s
  · rw [act_of_conflict h]
  · rw [act_comm h, act_act]

/-! ### A list of rules -/

/-- A rule of a list changes nothing that the list does. -/
theorem foldl_act_of_mem {rules : List ExceptionRule} (h : r ∈ rules) (ds : List Declaration) :
    rules.foldl act (act ds r) = rules.foldl act ds := by
  induction rules generalizing ds with
  | nil => cases h
  | cons s rest ih =>
    rw [List.foldl_cons, List.foldl_cons]
    rcases List.mem_cons.mp h with rfl | hrest
    · rw [act_act]
    · calc rest.foldl act (act (act ds r) s)
          = rest.foldl act (act (act (act ds r) s) r) := (ih hrest _).symm
        _ = rest.foldl act (act (act ds s) r) := by rw [act_act_act]
        _ = rest.foldl act (act ds s) := ih hrest _

/-- **A list of rules acts once.** -/
theorem foldl_act_foldl_act (rules : List ExceptionRule) (ds : List Declaration) :
    rules.foldl act (rules.foldl act ds) = rules.foldl act ds := by
  have hprefix : ∀ rest : List ExceptionRule, (∀ r ∈ rest, r ∈ rules) → ∀ ds,
      rules.foldl act (rest.foldl act ds) = rules.foldl act ds := by
    intro rest
    induction rest with
    | nil => exact fun _ _ => rfl
    | cons r rest ih =>
      intro hrest ds
      rw [List.foldl_cons, ih fun s hs => hrest s (List.mem_cons_of_mem r hs)]
      exact foldl_act_of_mem (hrest r List.mem_cons_self) ds
  exact hprefix rules (fun _ h => h) ds

end ObjcMetadata.ExceptionRule
