/-
# `Tour` — a search meets the nodes in the order of their least words

In a graph with labelled edges words lead from the root to the nodes.  Words are ordered by
length, and words of the same length as in a dictionary (`rank`).  When the edges of each node
are given in the order of their labels, a breadth-first search meets the nodes in the order of
the least words that lead to them (`exists_ranked_discover`).

`tour` is the search with the word over which each node was met.  What carries the proof is the
queue (`Ranked`): its words ascend, and none of them is as late as a word of the queue with one
more label.  So the words that a round puts behind the others are later than all in the queue, and
the words of the tour ascend throughout (`tour_ascending`).  They are least: an edge from a node of
the tour leads to a node that was met over the word of that edge, or before (`tour_closed`), so no
other word can be ahead (`exists_mem_tour_le`).
-/
import FrontEnd.Proofs.Discovery
import Mathlib.Data.List.Nodup
import Mathlib.Data.List.Shortlex
import Mathlib.Data.Prod.Lex

namespace FrontEnd.Discovery

variable {α β : Type}

/-! ## The order of words -/

/-- The place of a word among all words: by length, and then as in a dictionary. -/
def rank (w : List β) : ℕ ×ₗ List β := toLex (w.length, w)

theorem rank_injective : Function.Injective (rank (β := β)) := by
  intro v w h
  exact (Prod.mk.inj h).2

section Rank

variable [LinearOrder β] {v w : List β}

theorem rank_lt_iff : rank v < rank w ↔ List.Shortlex (· < ·) v w := by
  rw [rank, rank, Prod.Lex.toLex_lt_toLex, List.shortlex_def]
  rfl

theorem rank_nil_le (w : List β) : rank [] ≤ rank w := by
  rcases List.shortlex_nil_or_eq_nil w with h | rfl
  · exact (rank_lt_iff.mpr h).le
  · exact le_rfl

theorem rank_lt_append (w : List β) (c : β) : rank w < rank (w ++ [c]) := by
  refine rank_lt_iff.mpr (.of_length_lt ?_)
  rw [List.length_append]
  exact Nat.lt_succ_self _

theorem append_lt_append (hlen : v.length = w.length) (h : v < w) (c d : β) :
    v ++ [c] < w ++ [d] := by
  induction v generalizing w with
  | nil =>
      obtain rfl := List.eq_nil_of_length_eq_zero hlen.symm
      exact absurd h (lt_irrefl _)
  | cons a v ih =>
      cases w with
      | nil => exact absurd hlen (Nat.succ_ne_zero _)
      | cons b w =>
          rcases List.cons_lt_cons_iff.mp h with hab | ⟨rfl, htail⟩
          · exact List.cons_lt_cons_iff.mpr (Or.inl hab)
          · exact List.cons_lt_cons_iff.mpr (Or.inr ⟨rfl, ih (Nat.succ_injective hlen) htail⟩)

/-- Words that are in order stay so with any labels behind them. -/
theorem rank_append_lt (h : rank v < rank w) (c d : β) : rank (v ++ [c]) < rank (w ++ [d]) := by
  simp only [rank, Prod.Lex.toLex_lt_toLex, List.length_append, List.length_singleton] at h ⊢
  rcases h with hlen | ⟨hlen, hlt⟩
  · exact Or.inl (Nat.succ_lt_succ hlen)
  · exact Or.inr ⟨congrArg _ hlen, append_lt_append hlen hlt c d⟩

theorem rank_append_lt_append (w : List β) {c d : β} (h : c < d) :
    rank (w ++ [c]) < rank (w ++ [d]) :=
  rank_lt_iff.mpr (((List.shortlex_singleton_iff c d).mpr h).append_left w)

theorem rank_append_le (h : rank v ≤ rank w) {c d : β} (hcd : c ≤ d) :
    rank (v ++ [c]) ≤ rank (w ++ [d]) := by
  rcases h.eq_or_lt with heq | hlt
  · obtain rfl := rank_injective heq
    rcases hcd.eq_or_lt with rfl | hcd
    · exact le_rfl
    · exact (rank_append_lt_append v hcd).le
  · exact (rank_append_lt hlt c d).le

end Rank

/-! ## Walks -/

/-- `Walk edges root w a`: the word `w` leads from the root to `a`. -/
inductive Walk (edges : α → List (β × α)) (root : α) : List β → α → Prop
  | nil : Walk edges root [] root
  | snoc {w : List β} {a b : α} {c : β} :
      Walk edges root w a → (c, b) ∈ edges a → Walk edges root (w ++ [c]) b

section Walk

variable {edges : α → List (β × α)} {root a : α} {w : List β}

theorem walk_nil_iff : Walk edges root [] a ↔ a = root := by
  refine ⟨?_, ?_⟩
  · intro h
    generalize hword : [] = word at h
    cases h with
    | nil => rfl
    | snoc => exact absurd hword.symm (List.append_ne_nil_of_right_ne_nil _ (List.cons_ne_nil _ _))
  · rintro rfl
    exact .nil

theorem walk_append_iff {c : β} :
    Walk edges root (w ++ [c]) a ↔ ∃ b, Walk edges root w b ∧ (c, a) ∈ edges b := by
  refine ⟨?_, ?_⟩
  · intro h
    generalize hword : w ++ [c] = word at h
    cases h with
    | nil => exact absurd hword (List.append_ne_nil_of_right_ne_nil _ (List.cons_ne_nil _ _))
    | snoc hwalk hedge =>
        obtain ⟨rfl, hc⟩ := List.append_inj' hword rfl
        obtain rfl := List.singleton_inj.mp hc
        exact ⟨_, hwalk, hedge⟩
  · rintro ⟨b, hwalk, hedge⟩
    exact .snoc hwalk hedge

end Walk

/-- `Least edges root w a`: of the words that lead from the root to `a`, `w` comes first. -/
structure Least [LinearOrder β] (edges : α → List (β × α)) (root : α) (w : List β) (a : α) :
    Prop where
  walk : Walk edges root w a
  le : ∀ {v : List β}, Walk edges root v a → rank w ≤ rank v

/-! ## The search with its words -/

section Tour

variable [DecidableEq α]

/-- The edges to nodes that are not in `seen`, to each of them the first one only. -/
def freshEdges (seen : List α) : List (β × α) → List (β × α)
  | [] => []
  | (c, a) :: l =>
    if isIn a seen then freshEdges seen l else (c, a) :: freshEdges (a :: seen) l

/-- The nodes that edges lead to, each with the word over which they are met from `w`. -/
def extended (w : List β) (edges : List (β × α)) : List (List β × α) :=
  edges.map fun (c, a) => (w ++ [c], a)

/-- Lists what is in the queue and everything new behind it, each node with the word over which
it is met. -/
def tour (edges : α → List (β × α)) : Nat → List α → List (List β × α) → List (List β × α)
  | 0, _, queue => queue
  | _ + 1, _, [] => []
  | fuel + 1, seen, (w, a) :: queue =>
    let new := freshEdges seen (edges a)
    (w, a) :: tour edges fuel (new.map Prod.snd ++ seen) (queue ++ extended w new)

variable {edges : α → List (β × α)}

theorem map_snd_freshEdges : ∀ (l : List (β × α)) (seen : List α),
    (freshEdges seen l).map Prod.snd = fresh seen (l.map Prod.snd) := by
  intro l
  induction l with
  | nil =>
      intro seen
      rfl
  | cons e l ih =>
      intro seen
      simp only [freshEdges, List.map_cons, fresh]
      split
      · exact ih seen
      · exact congrArg (e.2 :: ·) (ih _)

theorem freshEdges_sublist : ∀ (l : List (β × α)) (seen : List α),
    (freshEdges seen l).Sublist l := by
  intro l
  induction l with
  | nil =>
      intro seen
      exact .slnil
  | cons e l ih =>
      intro seen
      simp only [freshEdges]
      split
      · exact (ih seen).cons e
      · exact (ih _).cons_cons e

omit [DecidableEq α] in
theorem map_snd_extended (w : List β) (l : List (β × α)) :
    (extended w l).map Prod.snd = l.map Prod.snd :=
  List.map_map

omit [DecidableEq α] in
theorem mem_extended {w u : List β} {l : List (β × α)} {a : α} :
    (u, a) ∈ extended w l ↔ ∃ c, (c, a) ∈ l ∧ u = w ++ [c] := by
  simp only [extended, List.mem_map, Prod.exists, Prod.mk.injEq]
  refine ⟨?_, ?_⟩
  · rintro ⟨c, b, hmem, rfl, rfl⟩
    exact ⟨c, hmem, rfl⟩
  · rintro ⟨c, hmem, rfl⟩
    exact ⟨c, a, hmem, rfl, rfl⟩

/-- Without its words a tour is the search. -/
theorem map_snd_tour : ∀ (fuel : Nat) (seen : List α) (queue : List (List β × α)),
    (tour edges fuel seen queue).map Prod.snd =
      explore (fun a => (edges a).map Prod.snd) fuel seen (queue.map Prod.snd) := by
  intro fuel
  induction fuel with
  | zero =>
      intro seen queue
      rfl
  | succ fuel ih =>
      intro seen queue
      cases queue with
      | nil => rfl
      | cons p queue =>
          simp only [tour, explore, List.map_cons, ih, List.map_append, map_snd_extended,
            map_snd_freshEdges]

/-- A round of a tour is a round of the search. -/
theorem searching_round {nodes : List α}
    (hnext : ∀ a ∈ nodes, ∀ b ∈ (edges a).map Prod.snd, b ∈ nodes) {fuel : Nat} {seen : List α}
    {w : List β} {a : α} {queue : List (List β × α)}
    (h : Searching nodes (fuel + 1) seen (((w, a) :: queue).map Prod.snd)) :
    Searching nodes fuel ((freshEdges seen (edges a)).map Prod.snd ++ seen)
      ((queue ++ extended w (freshEdges seen (edges a))).map Prod.snd) := by
  rw [List.map_append, map_snd_extended, map_snd_freshEdges]
  exact Searching.step hnext h

/-- What is in the queue is in the tour. -/
theorem mem_tour_of_mem {p : List β × α} : ∀ {fuel : Nat} {seen : List α}
    {queue : List (List β × α)}, p ∈ queue → p ∈ tour edges fuel seen queue := by
  intro fuel
  induction fuel with
  | zero =>
      intro seen queue hp
      exact hp
  | succ fuel ih =>
      intro seen queue hp
      cases queue with
      | nil => exact absurd hp List.not_mem_nil
      | cons q queue =>
          rcases List.mem_cons.mp hp with rfl | hp
          · exact List.mem_cons_self
          · exact List.mem_cons_of_mem _ (ih (List.mem_append_left _ hp))

/-- What holds of the queue and goes along with edges holds of the tour. -/
theorem tour_invariant {P : List β × α → Prop}
    (hedge : ∀ {w : List β} {a b : α} {c : β}, P (w, a) → (c, b) ∈ edges a → P (w ++ [c], b)) :
    ∀ {fuel : Nat} {seen : List α} {queue : List (List β × α)}, (∀ p ∈ queue, P p) →
      ∀ p ∈ tour edges fuel seen queue, P p := by
  intro fuel
  induction fuel with
  | zero =>
      intro seen queue hqueue
      exact hqueue
  | succ fuel ih =>
      intro seen queue hqueue
      cases queue with
      | nil => exact hqueue
      | cons q queue =>
          obtain ⟨hq, hqueue⟩ := List.forall_mem_cons.mp hqueue
          refine List.forall_mem_cons.mpr ⟨hq, ih fun p hp => ?_⟩
          rcases List.mem_append.mp hp with hp | hp
          · exact hqueue p hp
          · obtain ⟨c, hmem, hword⟩ := mem_extended.mp hp
            have hnext := hedge hq ((freshEdges_sublist _ _).subset hmem)
            rwa [← hword] at hnext

end Tour

/-! ## The words of a tour ascend -/

section Order

variable [LinearOrder β]

/-- Of the edges to a new node the one with the least label is kept. -/
theorem exists_mem_freshEdges [DecidableEq α] {l : List (β × α)}
    (hl : l.Pairwise fun e f => e.1 < f.1) :
    ∀ {seen : List α} {c : β} {a : α}, (c, a) ∈ l → a ∉ seen →
      ∃ d ≤ c, (d, a) ∈ freshEdges seen l := by
  induction l with
  | nil => exact fun h => absurd h List.not_mem_nil
  | cons e l ih =>
      intro seen c a hmem ha
      obtain ⟨hhead, hl⟩ := List.pairwise_cons.mp hl
      simp only [freshEdges]
      split
      · rename_i hmet
        rcases List.mem_cons.mp hmem with rfl | hmem
        · exact absurd (isIn_iff.mp hmet) ha
        · exact ih hl hmem ha
      · rcases List.mem_cons.mp hmem with rfl | hmem
        · exact ⟨c, le_rfl, List.mem_cons_self⟩
        · by_cases hea : e.2 = a
          · subst hea
            exact ⟨e.1, (hhead _ hmem).le, List.mem_cons_self⟩
          · have hnew : a ∉ e.2 :: seen :=
              List.not_mem_cons_of_ne_of_not_mem (Ne.symm hea) ha
            obtain ⟨d, hd, hmem⟩ := ih hl hmem hnew
            exact ⟨d, hd, List.mem_cons_of_mem _ hmem⟩

/-- `Ranked queue`: the words of a queue ascend, and each comes before all words of the queue with
one more label. -/
structure Ranked (queue : List (List β × α)) : Prop where
  ascending : queue.Pairwise fun p q => rank p.1 < rank q.1
  close : ∀ p ∈ queue, ∀ q ∈ queue, ∀ c, rank q.1 < rank (p.1 ++ [c])

theorem ranked_root (root : α) : Ranked [(([] : List β), root)] := by
  refine ⟨List.pairwise_singleton _ _, ?_⟩
  intro p hp q hq c
  obtain rfl := List.mem_singleton.mp hp
  obtain rfl := List.mem_singleton.mp hq
  exact rank_lt_append [] c

/-- A round keeps a queue ranked: what it puts behind the others has the word that it has taken off
and one more label. -/
theorem Ranked.step {w : List β} {a : α} {queue : List (List β × α)} {new : List (β × α)}
    (hnew : new.Pairwise fun e f => e.1 < f.1) (h : Ranked ((w, a) :: queue)) :
    Ranked (queue ++ extended w new) := by
  obtain ⟨hfirst, hqueue⟩ := List.pairwise_cons.mp h.ascending
  have hclose {q : List β × α} (hq : q ∈ queue) (c : β) : rank q.1 < rank (w ++ [c]) :=
    h.close _ List.mem_cons_self q (List.mem_cons_of_mem _ hq) c
  refine ⟨?_, ?_⟩
  · refine List.pairwise_append.mpr ⟨hqueue, ?_, ?_⟩
    · exact List.pairwise_map.mpr (hnew.imp (rank_append_lt_append w))
    · rintro q hq ⟨u, b⟩ hp
      obtain ⟨c, -, rfl⟩ := mem_extended.mp hp
      exact hclose hq c
  · -- either word stood in the queue before or is a new one
    rintro ⟨u, b⟩ hp ⟨v, b'⟩ hq d
    rcases List.mem_append.mp hp with hp | hp <;> rcases List.mem_append.mp hq with hq | hq
    · exact h.close _ (List.mem_cons_of_mem _ hp) _ (List.mem_cons_of_mem _ hq) d
    · obtain ⟨c, -, rfl⟩ := mem_extended.mp hq
      exact rank_append_lt (hfirst _ hp) c d
    · obtain ⟨c, -, rfl⟩ := mem_extended.mp hp
      exact (hclose hq c).trans (rank_lt_append _ d)
    · obtain ⟨c, -, rfl⟩ := mem_extended.mp hp
      obtain ⟨c', -, rfl⟩ := mem_extended.mp hq
      exact rank_append_lt (rank_lt_append w c) c' d

variable [DecidableEq α] {edges : α → List (β × α)}
  (hedges : ∀ a, (edges a).Pairwise fun e f => e.1 < f.1)

/-- What is met from later words is met over later words. -/
theorem rank_lt_of_mem_tour {w : List β} {fuel : Nat} {seen : List α} {queue : List (List β × α)}
    (hqueue : ∀ p ∈ queue, rank w < rank p.1) :
    ∀ p ∈ tour edges fuel seen queue, rank w < rank p.1 :=
  tour_invariant (P := fun p => rank w < rank p.1)
    (fun hlt _ => hlt.trans (rank_lt_append _ _)) hqueue

/-- The words that are still to be met when one is taken off a queue are later than it. -/
theorem rank_lt_of_mem_round {w : List β} {a : α} {fuel : Nat} {seen seen' : List α}
    {queue : List (List β × α)} (h : Ranked ((w, a) :: queue)) :
    ∀ p ∈ tour edges fuel seen (queue ++ extended w (freshEdges seen' (edges a))),
      rank w < rank p.1 := by
  refine rank_lt_of_mem_tour fun p hp => ?_
  rcases List.mem_append.mp hp with hp | hp
  · exact (List.pairwise_cons.mp h.ascending).1 p hp
  · obtain ⟨c, -, hword⟩ := mem_extended.mp hp
    rw [hword]
    exact rank_lt_append w c

include hedges

theorem tour_ascending : ∀ {fuel : Nat} {seen : List α} {queue : List (List β × α)},
    Ranked queue → (tour edges fuel seen queue).Pairwise fun p q => rank p.1 < rank q.1 := by
  intro fuel
  induction fuel with
  | zero =>
      intro seen queue h
      exact h.ascending
  | succ fuel ih =>
      intro seen queue h
      cases queue with
      | nil => exact .nil
      | cons p queue =>
          have hnew := (hedges p.2).sublist (freshEdges_sublist _ seen)
          exact List.pairwise_cons.mpr ⟨rank_lt_of_mem_round h, ih (h.step hnew)⟩

/-- An edge from a node of the tour leads to a node that had been met before the tour, or is met in
it over no later word than that of the edge. -/
theorem tour_closed {nodes : List α}
    (hnext : ∀ a ∈ nodes, ∀ b ∈ (edges a).map Prod.snd, b ∈ nodes) :
    ∀ {fuel : Nat} {seen : List α} {queue : List (List β × α)}, Ranked queue →
      Searching nodes fuel seen (queue.map Prod.snd) →
      ∀ {w : List β} {a b : α} {c : β}, (w, a) ∈ tour edges fuel seen queue → (c, b) ∈ edges a →
        b ∈ seen ∨ ∃ u, (u, b) ∈ tour edges fuel seen queue ∧ rank u ≤ rank (w ++ [c]) := by
  intro fuel
  induction fuel with
  | zero =>
      intro seen queue _ hsearch w a b c hmem
      obtain rfl := List.map_eq_nil_iff.mp hsearch.pending_eq_nil
      exact absurd hmem List.not_mem_nil
  | succ fuel ih =>
      intro seen queue h hsearch w a b c hmem hedge
      cases queue with
      | nil => exact absurd hmem List.not_mem_nil
      | cons p queue =>
          obtain ⟨v, a'⟩ := p
          by_cases hseen : b ∈ seen
          · exact Or.inl hseen
          refine Or.inr ?_
          have hnew := (hedges a').sublist (freshEdges_sublist _ seen)
          -- what is new behind `a'` is met over its word and the label
          have hmet {d : β} (hd : (d, b) ∈ freshEdges seen (edges a')) :
              (v ++ [d], b) ∈ tour edges (fuel + 1) seen ((v, a') :: queue) :=
            List.mem_cons_of_mem _
              (mem_tour_of_mem (List.mem_append_right _ (mem_extended.mpr ⟨d, hd, rfl⟩)))
          rcases List.mem_cons.mp hmem with heq | hmem
          · obtain ⟨rfl, rfl⟩ := Prod.mk.inj heq
            obtain ⟨d, hdc, hd⟩ := exists_mem_freshEdges (hedges a) hedge hseen
            exact ⟨_, hmet hd, rank_append_le le_rfl hdc⟩
          · have hround := searching_round hnext hsearch
            rcases ih (h.step hnew) hround hmem hedge with hb | ⟨u, hu, hle⟩
            · obtain ⟨⟨d, b'⟩, hd, rfl⟩ :=
                List.mem_map.mp ((List.mem_append.mp hb).resolve_right hseen)
              have hlt : rank v < rank w := rank_lt_of_mem_round h _ hmem
              exact ⟨_, hmet hd, (rank_append_lt hlt d c).le⟩
            · exact ⟨u, List.mem_cons_of_mem _ hu, hle⟩

/-- Over no word is a node reached before the tour meets it. -/
theorem exists_mem_tour_le {nodes : List α} {root : α} {fuel : Nat} (hroot : root ∈ nodes)
    (hnext : ∀ a ∈ nodes, ∀ b ∈ (edges a).map Prod.snd, b ∈ nodes) (hfuel : nodes.length ≤ fuel)
    {v : List β} {a : α} (hwalk : Walk edges root v a) :
    ∃ u, (u, a) ∈ tour edges fuel [root] [([], root)] ∧ rank u ≤ rank v := by
  have hsearch : Searching nodes fuel [root] [root] :=
    searching_roots (List.forall_mem_singleton.mpr hroot) hfuel
  have hstart : ([], root) ∈ tour edges fuel [root] [([], root)] :=
    mem_tour_of_mem List.mem_cons_self
  induction hwalk with
  | nil => exact ⟨[], hstart, le_rfl⟩
  | @snoc v a b c _ hedge ih =>
      obtain ⟨u, hu, hle⟩ := ih
      rcases tour_closed hedges hnext (ranked_root root) hsearch hu hedge with hb | ⟨u', hu', hle'⟩
      · obtain rfl := List.mem_singleton.mp hb
        exact ⟨[], hstart, rank_nil_le _⟩
      · exact ⟨u', hu', hle'.trans (rank_append_le hle le_rfl)⟩

/-- **A search meets the nodes in the order of their least words.**  Where the edges of each node
are given in the order of their labels, and there is fuel for all nodes, each node that is listed
has a least word that leads to it from the root, and the least words of the nodes ascend. -/
theorem exists_ranked_discover {nodes : List α} {root : α} {fuel : Nat} (hroot : root ∈ nodes)
    (hnext : ∀ a ∈ nodes, ∀ b ∈ (edges a).map Prod.snd, b ∈ nodes) (hfuel : nodes.length ≤ fuel) :
    ∃ ranked : List (List β × α),
      ranked.map Prod.snd = discover (fun a => (edges a).map Prod.snd) fuel [root] ∧
      ranked.Pairwise (fun p q => rank p.1 < rank q.1) ∧
      ∀ p ∈ ranked, Least edges root p.1 p.2 := by
  have hnodes : (tour edges fuel [root] [([], root)]).map Prod.snd =
      discover (fun a => (edges a).map Prod.snd) fuel [root] := map_snd_tour _ _ _
  refine ⟨_, hnodes, tour_ascending hedges (ranked_root root), ?_⟩
  rintro ⟨w, a⟩ hmem
  refine ⟨?_, ?_⟩
  · refine tour_invariant (P := fun p => Walk edges root p.1 p.2) .snoc ?_ _ hmem
    exact List.forall_mem_singleton.mpr .nil
  · intro v hwalk
    obtain ⟨u, hu, hle⟩ := exists_mem_tour_le hedges hroot hnext hfuel hwalk
    -- the tour meets a node only once
    have honce : ((tour edges fuel [root] [([], root)]).map Prod.snd).Nodup := by
      rw [hnodes]
      exact nodup_discover _ _
    obtain ⟨rfl, -⟩ := Prod.mk.inj (List.inj_on_of_nodup_map honce hmem hu rfl)
    exact hle

end Order

end FrontEnd.Discovery
