/-
# `Subsets` — searching among the sets over a finite universe

The canonical collection of item sets and the subset construction search a graph whose
nodes are sets.  Every set over a list of `n` members is one of at most `2 ^ n`, so
that much fuel lets the search list all reachable sets.
-/
import FrontEnd.Proofs.Discovery
import FrontEnd.SortedSet
import Mathlib.Data.List.Sublists

namespace FrontEnd

namespace SortedSet

theorem isEmpty_iff {α : Type} [Ord α] {s : SortedSet α} : s.isEmpty = true ↔ ∀ x, x ∉ s := by
  rw [isEmpty, List.isEmpty_iff, List.eq_nil_iff_forall_not_mem]
  rfl

theorem nodup_toList {α : Type} [Ord α] [Std.ReflOrd α] (s : SortedSet α) : s.toList.Nodup := by
  refine s.ascending.imp ?_
  intro a b hab heq
  rw [heq, Std.ReflOrd.compare_self] at hab
  exact nomatch hab

variable {α : Type} [Ord α] [Std.TransOrd α] [Std.LawfulEqOrd α]

/-- A set made of a list without repetitions has as many members as the list. -/
theorem size_ofList {l : List α} (h : l.Nodup) : (ofList l).size = l.length := by
  refine List.Perm.length_eq ((List.perm_ext_iff_of_nodup (nodup_toList _) h).mpr ?_)
  intro a
  exact mem_ofList

/-- The sets with members among the given ones. -/
def subsets (members : List α) : List (SortedSet α) := members.sublists.map ofList

theorem length_subsets (members : List α) :
    (subsets members).length = Nat.pow 2 members.length := by
  rw [subsets, List.length_map, List.length_sublists]
  rfl

theorem mem_subsets [DecidableEq α] {members : List α} {s : SortedSet α} :
    s ∈ subsets members ↔ ∀ x ∈ s, x ∈ members := by
  simp only [subsets, List.mem_map, List.mem_sublists]
  refine ⟨?_, ?_⟩
  · rintro ⟨l, hl, rfl⟩ x hx
    exact hl.subset (mem_ofList.mp hx)
  · intro h
    refine ⟨members.filter (· ∈ s), List.filter_sublist, SortedSet.ext fun x => ?_⟩
    simp only [mem_ofList, List.mem_filter, decide_eq_true_eq]
    exact ⟨And.right, fun hx => ⟨h x hx, hx⟩⟩

end SortedSet

namespace Discovery

variable {α : Type} [Ord α] [Std.TransOrd α] [Std.LawfulEqOrd α] [DecidableEq α]

section Sets

variable {next : SortedSet α → List (SortedSet α)} {members : List α} {root : SortedSet α}

theorem subsets_closed
    (hnext : ∀ s, (∀ x ∈ s, x ∈ members) → ∀ t ∈ next s, ∀ x ∈ t, x ∈ members) :
    ∀ s ∈ SortedSet.subsets members, ∀ t ∈ next s, t ∈ SortedSet.subsets members := by
  intro s hs t ht
  exact SortedSet.mem_subsets.mpr (hnext s (SortedSet.mem_subsets.mp hs) t ht)

theorem root_mem_subsets (hroot : ∀ x ∈ root, x ∈ members) :
    ∀ s ∈ [root], s ∈ SortedSet.subsets members := by
  intro s hs
  obtain rfl := List.mem_singleton.mp hs
  exact SortedSet.mem_subsets.mpr hroot

/-- A search that never leaves the sets over `members` lists exactly the reachable sets. -/
theorem mem_discover_sets_iff (hroot : ∀ x ∈ root, x ∈ members)
    (hnext : ∀ s, (∀ x ∈ s, x ∈ members) → ∀ t ∈ next s, ∀ x ∈ t, x ∈ members)
    {s : SortedSet α} :
    s ∈ discover next (Nat.pow 2 members.length) [root] ↔ Reachable next [root] s :=
  mem_discover_iff (root_mem_subsets hroot) (subsets_closed hnext)
    (Nat.le_of_eq (SortedSet.length_subsets members))

/-- A search that never leaves the sets over `members` ends with its queue empty. -/
theorem drains_discover_sets (hroot : ∀ x ∈ root, x ∈ members)
    (hnext : ∀ s, (∀ x ∈ s, x ∈ members) → ∀ t ∈ next s, ∀ x ∈ t, x ∈ members) :
    Drains next [root] [root] (discover next (Nat.pow 2 members.length) [root]).length :=
  (searching_roots (root_mem_subsets hroot)
    (Nat.le_of_eq (SortedSet.length_subsets members))).drains (subsets_closed hnext)

end Sets

/-- A search lists its root first. -/
theorem getElem?_discover_zero {β : Type} [DecidableEq β] {next : β → List β} {fuel : Nat}
    {root : β} : (discover next fuel [root])[0]? = some root := by
  cases fuel with
  | zero => rfl
  | succ fuel => rfl

end Discovery

end FrontEnd
