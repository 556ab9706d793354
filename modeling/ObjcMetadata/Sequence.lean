/-!
Operations on lists whose order matters.

The order of declarations, members and names is part of what a module says, so the operations here
keep it: changing the first fitting element, appending what is not there yet, and keeping the first
of several elements with one key.
-/

namespace ObjcMetadata

/-- Changes the first element that fits, if there is one. -/
def modifyFirst {α : Type} (fits : α → Bool) (change : α → α) : List α → List α
  | [] => []
  | a :: rest => if fits a then change a :: rest else a :: modifyFirst fits change rest

section

variable {α : Type} {fits : α → Bool} {change : α → α} {xs : List α}

theorem exists_of_mem_modifyFirst {b : α} (h : b ∈ modifyFirst fits change xs) :
    ∃ a ∈ xs, b = a ∨ fits a = true ∧ b = change a := by
  induction xs with
  | nil => simp [modifyFirst] at h
  | cons x rest ih =>
    unfold modifyFirst at h
    split at h
    · next hfits =>
      rcases List.mem_cons.1 h with rfl | hmem
      · exact ⟨x, List.mem_cons_self, .inr ⟨hfits, rfl⟩⟩
      · exact ⟨b, List.mem_cons_of_mem x hmem, .inl rfl⟩
    · rcases List.mem_cons.1 h with rfl | hmem
      · exact ⟨b, List.mem_cons_self, .inl rfl⟩
      · obtain ⟨a, ha, hb⟩ := ih hmem
        exact ⟨a, List.mem_cons_of_mem x ha, hb⟩

theorem exists_mem_modifyFirst {a : α} (h : a ∈ xs) :
    ∃ b ∈ modifyFirst fits change xs, b = a ∨ fits a = true ∧ b = change a := by
  induction xs with
  | nil => simp at h
  | cons x rest ih =>
    unfold modifyFirst
    split
    · next hfits =>
      rcases List.mem_cons.1 h with rfl | hmem
      · exact ⟨change a, List.mem_cons_self, .inr ⟨hfits, rfl⟩⟩
      · exact ⟨a, List.mem_cons_of_mem _ hmem, .inl rfl⟩
    · rcases List.mem_cons.1 h with rfl | hmem
      · exact ⟨a, List.mem_cons_self, .inl rfl⟩
      · obtain ⟨b, hb, hab⟩ := ih hmem
        exact ⟨b, List.mem_cons_of_mem _ hb, hab⟩

theorem modifyFirst_of_forall (h : ∀ a ∈ xs, fits a = false) : modifyFirst fits change xs = xs := by
  induction xs with
  | nil => rfl
  | cons x rest ih =>
    unfold modifyFirst
    rw [h x List.mem_cons_self, ih fun a ha => h a (List.mem_cons_of_mem x ha)]
    rfl

/-- A change that keeps a projection keeps it in all of the list. -/
theorem map_modifyFirst {β : Type} {f : α → β} (h : ∀ a, f (change a) = f a) :
    (modifyFirst fits change xs).map f = xs.map f := by
  induction xs with
  | nil => rfl
  | cons x rest ih =>
    unfold modifyFirst
    split
    · simp [h]
    · simp [ih]

end

/-- Where elements that stay keep a projection, it keeps its order. -/
theorem map_filterMap_sublist {α β : Type} {f : α → β} {change : α → Option α} {xs : List α}
    (h : ∀ a ∈ xs, ∀ b, change a = some b → f b = f a) :
    ((xs.filterMap change).map f).Sublist (xs.map f) := by
  induction xs with
  | nil => exact .slnil
  | cons a rest ih =>
    have hrest := ih fun b hb => h b (List.mem_cons_of_mem a hb)
    cases hchange : change a with
    | none =>
      rw [List.filterMap_cons_none hchange]
      exact hrest.cons _
    | some b =>
      rw [List.filterMap_cons_some hchange, List.map_cons, List.map_cons,
        h a List.mem_cons_self b hchange]
      exact hrest.cons_cons _

/-- Appends, in order, the elements that are not there yet, each once. -/
def appendNew {α : Type} [DecidableEq α] (xs : List α) : List α → List α
  | [] => xs
  | y :: ys => if y ∈ xs then appendNew xs ys else appendNew (xs ++ [y]) ys

theorem mem_appendNew {α : Type} [DecidableEq α] {xs ys : List α} {a : α} :
    a ∈ appendNew xs ys ↔ a ∈ xs ∨ a ∈ ys := by
  induction ys generalizing xs with
  | nil => simp [appendNew]
  | cons y ys ih =>
    unfold appendNew
    split
    · next h =>
      rw [ih, List.mem_cons]
      constructor
      · exact fun ha => ha.imp_right Or.inr
      · rintro (ha | rfl | ha)
        · exact .inl ha
        · exact .inl h
        · exact .inr ha
    · rw [ih, List.mem_append, List.mem_singleton, List.mem_cons, or_assoc]

/-- The elements whose key is not among `seen` and does not occur before them. -/
def distinctBy {α κ : Type} [DecidableEq κ] (key : α → κ) (seen : List κ) : List α → List α
  | [] => []
  | a :: rest =>
    if key a ∈ seen then distinctBy key seen rest else a :: distinctBy key (key a :: seen) rest

section

variable {α κ : Type} [DecidableEq κ] {key : α → κ} {seen : List κ} {xs : List α}

theorem distinctBy_sublist : (distinctBy key seen xs).Sublist xs := by
  induction xs generalizing seen with
  | nil => exact .slnil
  | cons a rest ih =>
    unfold distinctBy
    split
    · exact ih.cons a
    · exact ih.cons_cons a

theorem nodup_map_distinctBy :
    ((distinctBy key seen xs).map key).Nodup ∧ ∀ a ∈ distinctBy key seen xs, key a ∉ seen := by
  induction xs generalizing seen with
  | nil => simp [distinctBy]
  | cons a rest ih =>
    unfold distinctBy
    split
    · exact ih
    · next hnew =>
      obtain ⟨hnodup, hrest⟩ := @ih (key a :: seen)
      constructor
      · refine List.nodup_cons.2 ⟨?_, hnodup⟩
        intro hmem
        obtain ⟨b, hb, heq⟩ := List.mem_map.1 hmem
        exact hrest b hb (heq ▸ List.mem_cons_self)
      · intro b hb
        rcases List.mem_cons.1 hb with rfl | hb
        · exact hnew
        · exact fun hmem => hrest b hb (List.mem_cons_of_mem _ hmem)

/-- Where no key is repeated, all elements are kept. -/
theorem distinctBy_eq_self (hkeys : (xs.map key).Nodup) (hseen : ∀ a ∈ xs, key a ∉ seen) :
    distinctBy key seen xs = xs := by
  induction xs generalizing seen with
  | nil => rfl
  | cons a rest ih =>
    obtain ⟨hnew, hrest⟩ := List.nodup_cons.1 hkeys
    unfold distinctBy
    rw [if_neg (hseen a List.mem_cons_self), ih hrest]
    intro b hb hmem
    rcases List.mem_cons.1 hmem with heq | hmem
    · exact hnew (heq ▸ List.mem_map_of_mem hb)
    · exact hseen b (List.mem_cons_of_mem a hb) hmem

end

end ObjcMetadata
