/-
# `Discovery` — breadth-first search over a finite graph

One search serves the whole library: ε-closures, closures of item sets, FIRST
and FOLLOW sets, the subset construction and the canonical collection of item
sets.  A graph is a successor function `next : α → List α`.  Nodes are listed in
the order in which they are first met, so a node's place in the list is a number
for it that depends on the graph alone.

The search ends because every node is listed once.  The caller knows a bound on
the number of nodes and hands it over as `fuel`; one unit is spent per node.  With
enough fuel exactly the reachable nodes are listed (`mem_discover_iff`).
-/

namespace FrontEnd.Discovery

variable {α : Type} [DecidableEq α]

/-- Whether `a` is in a list.  The search spends most of its time here, so the test is
compiled anew for each kind of node. -/
@[specialize] def isIn (a : α) : List α → Bool
  | [] => false
  | b :: l => if a = b then true else isIn a l

theorem isIn_iff {a : α} {l : List α} : isIn a l = true ↔ a ∈ l := by
  induction l with
  | nil => simp [isIn]
  | cons b l ih =>
    unfold isIn
    split
    · rename_i h
      simp [h]
    · rename_i h
      rw [ih, List.mem_cons]
      exact ⟨.inr, fun h' => h'.resolve_left h⟩

/-- The elements of a list that are not in `seen`, each at its first place only. -/
@[specialize] def fresh (seen : List α) : List α → List α
  | [] => []
  | a :: l => if isIn a seen then fresh seen l else a :: fresh (a :: seen) l

/-- Lists the `pending` nodes and everything new behind them.  `seen` holds the
nodes met so far, the pending ones included. -/
@[specialize] def explore (next : α → List α) : Nat → List α → List α → List α
  | 0, _, pending => pending
  | _ + 1, _, [] => []
  | fuel + 1, seen, a :: pending =>
    let new := fresh seen (next a)
    a :: explore next fuel (new ++ seen) (pending ++ new)

/-- The nodes reachable from `roots`, in the order in which they are met. -/
@[specialize] def discover (next : α → List α) (fuel : Nat) (roots : List α) : List α :=
  explore next fuel (fresh [] roots) (fresh [] roots)

/-- Like `explore`, for a graph with labelled edges: every node is listed with its edges. -/
@[specialize] def survey {β : Type} (edges : α → List (β × α)) :
    Nat → List α → List α → List (α × List (β × α))
  | 0, _, pending => pending.map fun a => (a, edges a)
  | _ + 1, _, [] => []
  | fuel + 1, seen, a :: pending =>
    let out := edges a
    let new := fresh seen (out.map Prod.snd)
    (a, out) :: survey edges fuel (new ++ seen) (pending ++ new)

/-- A survey lists the nodes that are discovered, in the same order. -/
theorem survey_eq_map {β : Type} (edges : α → List (β × α)) (fuel : Nat) (seen pending : List α) :
    survey edges fuel seen pending =
      (explore (fun a => (edges a).map Prod.snd) fuel seen pending).map fun a => (a, edges a) := by
  induction fuel generalizing seen pending with
  | zero => rfl
  | succ fuel ih =>
    cases pending with
    | nil => rfl
    | cons a pending => simp [survey, explore, ih]

/-! ## What `fresh` keeps -/

theorem mem_fresh {seen l : List α} {x : α} : x ∈ fresh seen l ↔ x ∈ l ∧ x ∉ seen := by
  induction l generalizing seen with
  | nil => simp [fresh]
  | cons a l ih =>
    unfold fresh
    split
    · rename_i h
      rw [isIn_iff] at h
      rw [ih, List.mem_cons]
      constructor
      · exact fun ⟨hx, hs⟩ => ⟨.inr hx, hs⟩
      · rintro ⟨rfl | hx, hs⟩
        · exact absurd h hs
        · exact ⟨hx, hs⟩
    · rename_i h
      rw [isIn_iff] at h
      rw [List.mem_cons, ih, List.mem_cons, List.mem_cons]
      constructor
      · rintro (rfl | ⟨hx, hs⟩)
        · exact ⟨.inl rfl, h⟩
        · exact ⟨.inr hx, fun hxs => hs (.inr hxs)⟩
      · rintro ⟨rfl | hx, hs⟩
        · exact .inl rfl
        · by_cases hxa : x = a
          · exact .inl hxa
          · exact .inr ⟨hx, fun hxs => hxs.elim hxa hs⟩

theorem nodup_fresh (seen l : List α) : (fresh seen l).Nodup := by
  induction l generalizing seen with
  | nil => simp [fresh]
  | cons a l ih =>
    unfold fresh
    split
    · exact ih seen
    · refine List.nodup_cons.2 ⟨fun h => ?_, ih _⟩
      exact (mem_fresh.1 h).2 (List.mem_cons_self ..)

/-! ## The nodes listed are the reachable ones -/

/-- A node is reachable from the roots along `next`. -/
inductive Reachable (next : α → List α) (roots : List α) : α → Prop
  | root {a : α} : a ∈ roots → Reachable next roots a
  | step {a b : α} : Reachable next roots a → b ∈ next a → Reachable next roots b

omit [DecidableEq α] in
theorem Reachable.mono {next : α → List α} {roots roots' : List α} {x : α}
    (h : ∀ a ∈ roots, Reachable next roots' a) (hx : Reachable next roots x) :
    Reachable next roots' x := by
  induction hx with
  | root ha => exact h _ ha
  | step _ hb ih => exact .step ih hb

theorem reachable_of_mem_explore {next : α → List α} {fuel : Nat} {seen pending : List α} {x : α}
    (h : x ∈ explore next fuel seen pending) : Reachable next pending x := by
  induction fuel generalizing seen pending with
  | zero => exact .root h
  | succ fuel ih =>
    cases pending with
    | nil => exact absurd h (by simp [explore])
    | cons a pending =>
      rcases List.mem_cons.1 h with rfl | h
      · exact .root (List.mem_cons_self ..)
      · refine Reachable.mono (fun b hb => ?_) (ih h)
        rcases List.mem_append.1 hb with hb | hb
        · exact .root (List.mem_cons_of_mem _ hb)
        · exact .step (.root (List.mem_cons_self ..)) (mem_fresh.1 hb).1

theorem subset_explore {next : α → List α} {fuel : Nat} {seen pending : List α} {x : α}
    (h : x ∈ pending) : x ∈ explore next fuel seen pending := by
  induction fuel generalizing seen pending with
  | zero => exact h
  | succ fuel ih =>
    cases pending with
    | nil => exact absurd h (by simp)
    | cons a pending =>
      rcases List.mem_cons.1 h with rfl | h
      · exact List.mem_cons_self ..
      · exact List.mem_cons_of_mem _ (ih (List.mem_append_left _ h))

/-- `Searching nodes fuel seen pending`: a search among `nodes` has met the nodes `seen`, each
once, the pending ones among them, and has fuel for all that it has not left behind. -/
structure Searching (nodes : List α) (fuel : Nat) (seen pending : List α) : Prop where
  nodup : seen.Nodup
  within : ∀ a ∈ seen, a ∈ nodes
  met : ∀ a ∈ pending, a ∈ seen
  enough : nodes.length + pending.length ≤ fuel + seen.length

/-- Taking one node off the queue and putting the new ones behind it keeps a search going. -/
theorem Searching.step {next : α → List α} {nodes : List α}
    (hnext : ∀ a ∈ nodes, ∀ b ∈ next a, b ∈ nodes) {fuel : Nat} {seen pending : List α} {a : α}
    (h : Searching nodes (fuel + 1) seen (a :: pending)) :
    Searching nodes fuel (fresh seen (next a) ++ seen) (pending ++ fresh seen (next a)) := by
  have ha : a ∈ nodes := h.within a (h.met a (List.mem_cons_self ..))
  refine ⟨?_, ?_, ?_, ?_⟩
  · exact List.nodup_append.2 ⟨nodup_fresh _ _, h.nodup, fun x hx y hy hxy =>
      (mem_fresh.1 hx).2 (hxy ▸ hy)⟩
  · exact fun x hx =>
      (List.mem_append.1 hx).elim (fun hx => hnext a ha x (mem_fresh.1 hx).1) (h.within x)
  · exact fun x hx => (List.mem_append.1 hx).elim
      (fun hx => List.mem_append_right _ (h.met x (List.mem_cons_of_mem _ hx)))
      (fun hx => List.mem_append_left _ hx)
  · have henough := h.enough
    simp only [List.length_append, List.length_cons] at henough ⊢
    omega

omit [DecidableEq α] in
/-- A search without fuel has no node left to look at. -/
theorem Searching.pending_eq_nil {nodes seen pending : List α}
    (h : Searching nodes 0 seen pending) : pending = [] := by
  have hle := h.nodup.length_le_of_subset h.within
  have henough := h.enough
  exact List.eq_nil_of_length_eq_zero (by omega)

/-- A search from some roots, which has met nothing else. -/
theorem searching_roots {nodes roots : List α} {fuel : Nat}
    (hroots : ∀ a ∈ roots, a ∈ nodes) (hfuel : nodes.length ≤ fuel) :
    Searching nodes fuel (fresh [] roots) (fresh [] roots) :=
  ⟨nodup_fresh [] roots, fun a ha => hroots a (mem_fresh.1 ha).1, fun _ ha => ha, by omega⟩

/-- The nodes behind a listed node are listed too, unless they had been met before. -/
theorem explore_closed {next : α → List α} {nodes : List α}
    (hnext : ∀ a ∈ nodes, ∀ b ∈ next a, b ∈ nodes) {fuel : Nat} {seen pending : List α}
    (h : Searching nodes fuel seen pending) {a b : α}
    (ha : a ∈ explore next fuel seen pending) (hb : b ∈ next a) :
    b ∈ seen ∨ b ∈ explore next fuel seen pending := by
  induction fuel generalizing seen pending with
  | zero =>
    obtain rfl := h.pending_eq_nil
    exact absurd ha (by simp [explore])
  | succ fuel ih =>
    cases pending with
    | nil => exact absurd ha (by simp [explore])
    | cons c pending =>
      rcases List.mem_cons.1 ha with rfl | ha
      · by_cases hbs : b ∈ seen
        · exact .inl hbs
        · exact .inr (List.mem_cons_of_mem _
            (subset_explore (List.mem_append_right _ (mem_fresh.2 ⟨hb, hbs⟩))))
      · rcases ih (h.step hnext) ha with hb' | hb'
        · rcases List.mem_append.1 hb' with hb' | hb'
          · exact .inr (List.mem_cons_of_mem _ (subset_explore (List.mem_append_right _ hb')))
          · exact .inl hb'
        · exact .inr (List.mem_cons_of_mem _ hb')

/-- With fuel for all `nodes`, among which the roots lie and which `next` does not leave,
exactly the reachable nodes are listed. -/
theorem mem_discover_iff {next : α → List α} {nodes roots : List α} {fuel : Nat}
    (hroots : ∀ a ∈ roots, a ∈ nodes) (hnext : ∀ a ∈ nodes, ∀ b ∈ next a, b ∈ nodes)
    (hfuel : nodes.length ≤ fuel) {x : α} :
    x ∈ discover next fuel roots ↔ Reachable next roots x := by
  have hmem {a : α} : a ∈ fresh [] roots ↔ a ∈ roots := by simp [mem_fresh]
  constructor
  · exact fun h => Reachable.mono (fun a ha => .root (hmem.1 ha)) (reachable_of_mem_explore h)
  · intro h
    induction h with
    | root ha => exact subset_explore (hmem.2 ha)
    | step _ hb ih =>
      rcases explore_closed hnext (searching_roots hroots hfuel) ih hb with h | h
      · exact subset_explore h
      · exact h

end FrontEnd.Discovery
