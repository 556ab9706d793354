import ObjcMetadata.Declaration.Closure
import ObjcMetadata.Proofs.Graph.Reach
/-!
Which declarations links lead to.

The rounds of a search along links are enough, since only keys that resolve have links. So what
links lead to depends on a lookup only through what it resolves (`reached_congr`), and a declaration
is reached exactly if links lead to its key, which is not that of the start, without following the
start again (`mem_reached_iff`).
-/

namespace ObjcMetadata.Lookup

open Relation Reach

variable {lookup lookup' : Lookup} {links : Declaration → List DeclKey} {start d : Declaration}

theorem mem_linked_iff {a b : DeclKey} :
    b ∈ lookup.linked links a ↔ ∃ d, lookup.find? a = some d ∧ b ∈ links d := by
  unfold linked
  cases lookup.find? a with
  | none => simp
  | some d => simp

theorem mem_keys_of_linked {key : DeclKey} (h : lookup.linked links key ≠ []) :
    key ∈ lookup.keys := by
  obtain ⟨next, hnext⟩ := List.exists_mem_of_ne_nil _ h
  obtain ⟨d, hfind, -⟩ := mem_linked_iff.mp hnext
  exact lookup.mem_keys key (by rw [hfind]; rfl)

theorem card_unseen_keys_lt (keys seen : List DeclKey) :
    (unseen keys.toFinset seen).card < keys.length + 1 :=
  Nat.lt_succ_of_le (Nat.le_trans (Finset.card_filter_le _ _) (List.toFinset_card_le keys))

/-- **What links lead to depends only on what is resolved**, and not on the keys that a lookup has
in store. -/
theorem reached_congr (h : lookup.find? = lookup'.find?) :
    lookup.reached links start = lookup'.reached links start := by
  have hlinked : lookup'.linked links = lookup.linked links := by
    funext key
    unfold linked
    rw [h]
  let nodes := lookup.keys.toFinset ∩ lookup'.keys.toFinset
  have hnodes : ∀ key, lookup.linked links key ≠ [] → key ∈ nodes := by
    intro key hkey
    refine Finset.mem_inter.mpr ⟨?_, ?_⟩
    · exact List.mem_toFinset.mpr (mem_keys_of_linked hkey)
    · exact List.mem_toFinset.mpr (mem_keys_of_linked (hlinked ▸ hkey))
  have hless : ∀ keys : List DeclKey, nodes ⊆ keys.toFinset →
      (unseen nodes [start.key]).card < keys.length + 1 := by
    intro keys hsubset
    exact Nat.lt_of_le_of_lt (Finset.card_le_card (Finset.filter_subset_filter _ hsubset))
      (card_unseen_keys_lt keys _)
  unfold reached
  rw [hlinked, h, extend_rounds_eq hnodes (hless lookup.keys Finset.inter_subset_left)
    (hless lookup'.keys Finset.inter_subset_right)]

/-- **A declaration is reached** exactly if links lead to its key, which is not that of the start,
without following the start again. -/
theorem mem_reached_iff :
    d ∈ lookup.reached links start ↔
      ∃ key, key ≠ start.key ∧ lookup.find? key = some d ∧
        ∃ a ∈ links start, ReflTransGen (Follows (lookup.linked links) [start.key]) a key := by
  have hfound : ∀ key, key ≠ start.key →
      (key ∈ extend (lookup.linked links) (lookup.keys.length + 1) [start.key] (links start) ↔
        ∃ a ∈ links start, ReflTransGen (Follows (lookup.linked links) [start.key]) a key) := by
    intro key hne
    have hkeys : ∀ key, lookup.linked links key ≠ [] → key ∈ lookup.keys.toFinset :=
      fun key hkey => List.mem_toFinset.mpr (mem_keys_of_linked hkey)
    rw [mem_extend_iff hkeys (card_unseen_keys_lt _ _)]
    simp [hne]
  unfold reached
  simp only [List.mem_filterMap, List.mem_filter, decide_eq_true_eq]
  constructor
  · rintro ⟨key, ⟨hmem, hne⟩, hfind⟩
    exact ⟨key, hne, hfind, (hfound key hne).mp hmem⟩
  · rintro ⟨key, hne, hfind, hleads⟩
    exact ⟨key, ⟨(hfound key hne).mpr hleads, hne⟩, hfind⟩

/-- The declaration of one key links to another. -/
def Linked (lookup : Lookup) (links : Declaration → List DeclKey) (a b : DeclKey) : Prop :=
  b ∈ lookup.linked links a

/-- Links lead to what is reached. -/
theorem leads_of_mem_reached (h : d ∈ lookup.reached links start) :
    ∃ key, key ≠ start.key ∧ lookup.find? key = some d ∧
      ∃ a ∈ links start, ReflTransGen (lookup.Linked links) a key := by
  obtain ⟨key, hne, hfind, a, ha, hleads⟩ := mem_reached_iff.mp h
  have hless : Follows (lookup.linked links) [start.key] ≤ lookup.Linked links :=
    fun _ _ hstep => hstep.2
  exact ⟨key, hne, hfind, a, ha, ReflTransGen.mono hless a key hleads⟩

/-- What links lead to is reached from what its own key resolves to. -/
theorem mem_reached_of_leads {key : DeclKey} (hstart : lookup.find? start.key = some start)
    (hfind : lookup.find? key = some d) (hne : key ≠ start.key)
    (hleads : ReflTransGen (lookup.Linked links) start.key key) :
    d ∈ lookup.reached links start := by
  rw [mem_reached_iff]
  obtain ⟨a, hfirst, hrest⟩ := (exists_leaving hleads).resolve_left hne
  obtain ⟨start', hstart', ha⟩ := mem_linked_iff.mp hfirst
  obtain rfl : start = start' := Option.some.inj (hstart.symm.trans hstart')
  have hfollows : (fun u v => u ≠ start.key ∧ lookup.Linked links u v) ≤
      Follows (lookup.linked links) [start.key] :=
    fun u v huv => ⟨by simpa using huv.1, huv.2⟩
  exact ⟨key, hne, hfind, a, ha, ReflTransGen.mono hfollows a key hrest⟩

end ObjcMetadata.Lookup
