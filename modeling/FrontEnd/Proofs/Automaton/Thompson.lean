/-
# `Automaton.Thompson` — the automaton of an expression accepts the words of the expression

The words of an automaton are spelled by the paths from its start to its final state.
A construction puts automata side by side and adds edges that read nothing: it embeds an
automaton (`Embeds`) when the edges in its block are those of the automaton, moved, and
the added ones leave from its final state only.  A path that leaves the block has spelled
a word of the automaton by then (`Embeds.leave`).  That one lemma serves all constructions;
for the star the path comes back to where it started.
-/
import FrontEnd.Automaton.Nfa
import Mathlib.Data.Set.Basic

namespace FrontEnd

/-- Any number of words, one after the other. -/
def repeated (words : Set (List Char)) : Set (List Char) :=
  {w | ∃ us : List (List Char), (∀ u ∈ us, u ∈ words) ∧ w = us.flatten}

theorem nil_mem_repeated (words : Set (List Char)) : [] ∈ repeated words :=
  ⟨[], nofun, rfl⟩

theorem append_mem_repeated {words : Set (List Char)} {u v : List Char} (hu : u ∈ words)
    (hv : v ∈ repeated words) : u ++ v ∈ repeated words := by
  obtain ⟨us, hus, rfl⟩ := hv
  exact ⟨u :: us, List.forall_mem_cons.mpr ⟨hu, hus⟩, rfl⟩

/-- The words that an expression denotes. -/
def Regex.words : Regex → Set (List Char)
  | .symbol c => {[c]}
  | .union l r => l.words ∪ r.words
  | .concat l r => {w | ∃ u ∈ l.words, ∃ v ∈ r.words, w = u ++ v}
  | .star e => repeated e.words

/-- What an edge adds to the word. -/
def Label.word : Label → List Char
  | .epsilon => []
  | .char c => [c]

namespace Nfa

/-! ## Edges and paths -/

/-- `n.Edge s l t`: an edge leads from `s` to `t` and reads `l`. -/
def Edge (n : Nfa) (s : Nat) (l : Label) (t : Nat) : Prop := (l, t) ∈ n.edges s

/-- `n.Path s w t`: a path leads from `s` to `t` and reads `w`. -/
inductive Path (n : Nfa) : Nat → List Char → Nat → Prop
  | nil (s : Nat) : Path n s [] s
  | step {s t u : Nat} {l : Label} {w : List Char} :
      n.Edge s l t → Path n t w u → Path n s (l.word ++ w) u

/-- The words that an automaton accepts. -/
def words (n : Nfa) : Set (List Char) := {w | n.Path n.start w n.final}

/-- The start state, the final state and the targets of the edges are states. -/
structure Proper (n : Nfa) : Prop where
  start_lt : n.start < n.size
  final_lt : n.final < n.size
  target_lt : ∀ {s t : Nat} {l : Label}, n.Edge s l t → t < n.size

theorem Edge.source_lt {n : Nfa} {s t : Nat} {l : Label} (h : n.Edge s l t) : s < n.size := by
  by_contra hge
  have hnone : n.states[s]? = none := Array.getElem?_eq_none (Nat.le_of_not_lt hge)
  rw [Edge, edges, hnone] at h
  exact nomatch h

theorem Path.trans {n : Nfa} {s t u : Nat} {v w : List Char} (h : n.Path s v t)
    (h' : n.Path t w u) : n.Path s (v ++ w) u := by
  induction h with
  | nil _ => exact h'
  | step hedge _ ih =>
      rw [List.append_assoc]
      exact .step hedge (ih h')

theorem Path.epsilon {n : Nfa} {s t u : Nat} {w : List Char} (hedge : n.Edge s .epsilon t)
    (h : n.Path t w u) : n.Path s w u :=
  .step hedge h

/-- From a state without edges a path goes nowhere. -/
theorem Path.of_sink {n : Nfa} {s t : Nat} {w : List Char} (hsink : ∀ l u, ¬ n.Edge s l u)
    (h : n.Path s w t) : w = [] := by
  cases h with
  | nil _ => rfl
  | step hedge _ => exact absurd hedge (hsink _ _)

/-! ## Blocks -/

/-- The edges of `n` in the block of `a`, which starts at `k`, are those of `a` and, from the final
state of `a`, edges to the exits that read nothing. -/
structure Embeds (n a : Nfa) (k : Nat) (exits : List Nat) : Prop where
  edge_iff : ∀ {s t : Nat} {l : Label}, s < a.size →
    (n.Edge (s + k) l t ↔
      (∃ u, a.Edge s l u ∧ t = u + k) ∨ (s = a.final ∧ l = .epsilon ∧ t ∈ exits))

namespace Embeds

variable {n a : Nfa} {k : Nat} {exits : List Nat}

theorem lift (h : Embeds n a k exits) {s t : Nat} {w : List Char} (hpath : a.Path s w t) :
    n.Path (s + k) w (t + k) := by
  induction hpath with
  | nil _ => exact .nil _
  | step hedge _ ih => exact .step ((h.edge_iff hedge.source_lt).mpr (Or.inl ⟨_, hedge, rfl⟩)) ih

theorem exit (h : Embeds n a k exits) (ha : a.Proper) {e t : Nat} {w : List Char}
    (he : e ∈ exits) (hpath : n.Path e w t) : n.Path (a.final + k) w t :=
  .epsilon ((h.edge_iff ha.final_lt).mpr (Or.inr ⟨rfl, rfl, he⟩)) hpath

/-- A block without exits is not left. -/
theorem stay (h : Embeds n a k []) (ha : a.Proper) {s t : Nat} {w : List Char} (hs : s < a.size)
    (hpath : n.Path (s + k) w (t + k)) : a.Path s w t := by
  generalize hfrom : s + k = from' at hpath
  generalize hto : t + k = to' at hpath
  induction hpath generalizing s with
  | nil _ =>
      obtain rfl : s = t := Nat.add_right_cancel (hfrom.trans hto.symm)
      exact .nil _
  | step hedge _ ih =>
      subst hfrom
      rcases (h.edge_iff hs).mp hedge with ⟨u, hu, rfl⟩ | ⟨-, -, hexit⟩
      · exact .step hu (ih (ha.target_lt hu) rfl hto)
      · exact nomatch hexit

/-- A path that ends outside of a block has come through its final state.  `K` is what can
be spelled from there on, when every exit leads out or back into the block. -/
theorem leave (h : Embeds n a k exits) (ha : a.Proper) {K : List Char → Prop} {s t : Nat}
    {w : List Char} (hs : s < a.size) (ht : ∀ p < a.size, p + k ≠ t)
    (hexits : ∀ e ∈ exits, (∀ v, n.Path e v t → K v) ∨
      ∃ p < a.size, e = p + k ∧ ∀ u v, a.Path p u a.final → K v → K (u ++ v))
    (hpath : n.Path (s + k) w t) : ∃ u v, w = u ++ v ∧ a.Path s u a.final ∧ K v := by
  generalize hfrom : s + k = from' at hpath
  induction hpath generalizing s with
  | nil _ => exact absurd hfrom (ht s hs)
  | @step _ e _ l w hedge hrest ih =>
      subst hfrom
      rcases (h.edge_iff hs).mp hedge with ⟨q, hq, rfl⟩ | ⟨rfl, rfl, hexit⟩
      · obtain ⟨u, v, rfl, hu, hv⟩ := ih (ha.target_lt hq) ht hexits rfl
        exact ⟨l.word ++ u, v, (List.append_assoc _ _ _).symm, .step hq hu, hv⟩
      · refine ⟨[], w, rfl, .nil _, ?_⟩
        rcases hexits e hexit with hout | ⟨p, hp, rfl, hback⟩
        · exact hout w hrest
        · obtain ⟨u, v, rfl, hu, hv⟩ := ih hp ht hexits rfl
          exact hback u v hu hv

end Embeds

/-! ## The edges of the constructions -/

/-- The edges of a state in a list of states. -/
def edgesAt (states : List Edges) (s : Nat) : Edges := states[s]?.getD []

theorem edge_toArray {start final s t : Nat} {l : Label} {states : List Edges} :
    (Nfa.mk start final states.toArray).Edge s l t ↔ (l, t) ∈ edgesAt states s := by
  simp [Edge, edges, edgesAt]

theorem mem_edgesAt_append {states states' : List Edges} {s : Nat} {e : Label × Nat} :
    e ∈ edgesAt (states ++ states') s ↔
      e ∈ edgesAt states s ∨ ∃ p, s = p + states.length ∧ e ∈ edgesAt states' p := by
  by_cases hs : s < states.length
  · have hno : ¬ ∃ p, s = p + states.length ∧ e ∈ edgesAt states' p := by
      rintro ⟨p, rfl, -⟩
      omega
    rw [edgesAt, List.getElem?_append_left hs, or_iff_left hno]
    rfl
  · have hge := Nat.le_of_not_lt hs
    have hnil : edgesAt states s = [] := by
      rw [edgesAt, List.getElem?_eq_none hge]
      rfl
    rw [hnil, edgesAt, List.getElem?_append_right hge]
    refine ⟨?_, ?_⟩
    · intro he
      exact Or.inr ⟨s - states.length, by omega, he⟩
    · rintro (he | ⟨p, rfl, he⟩)
      · exact nomatch he
      · rwa [Nat.add_sub_cancel]

theorem mem_edgesAt_shifted {n : Nfa} {k s t : Nat} {l : Label} :
    (l, t) ∈ edgesAt (n.shifted k) s ↔ ∃ u, n.Edge s l u ∧ t = u + k := by
  simp only [edgesAt, shifted, List.getElem?_map, Array.getElem?_toList, Edge, edges]
  cases n.states[s]? with
  | none => simp
  | some es =>
      simp only [Option.map_some, Option.getD_some, List.mem_map, Prod.exists, Prod.mk.injEq]
      refine ⟨?_, ?_⟩
      · rintro ⟨_, u, hu, rfl, rfl⟩
        exact ⟨u, hu, rfl⟩
      · rintro ⟨u, hu, rfl⟩
        exact ⟨l, u, hu, rfl, rfl⟩

theorem mem_epsilons {ts : List Nat} {l : Label} {t : Nat} :
    (l, t) ∈ epsilons ts ↔ l = .epsilon ∧ t ∈ ts := by
  simp only [epsilons, List.mem_map, Prod.mk.injEq]
  refine ⟨?_, ?_⟩
  · rintro ⟨u, hu, rfl, rfl⟩
    exact ⟨rfl, hu⟩
  · rintro ⟨rfl, ht⟩
    exact ⟨t, ht, rfl, rfl⟩

theorem mem_edgesAt_single {es : Edges} {s : Nat} {e : Label × Nat} :
    e ∈ edgesAt [es] s ↔ s = 0 ∧ e ∈ es := by
  cases s with
  | zero => simp [edgesAt]
  | succ s => simp [edgesAt]

theorem mem_edgesAt_link {states : List Edges} {source s t : Nat} {ts : List Nat} {l : Label}
    (hsource : source < states.length) :
    (l, t) ∈ edgesAt (link states source ts) s ↔
      (l, t) ∈ edgesAt states s ∨ (s = source ∧ l = .epsilon ∧ t ∈ ts) := by
  rw [edgesAt, link, List.getElem?_modify]
  by_cases hs : s = source
  · subst hs
    simp [edgesAt, List.getElem?_eq_getElem hsource, mem_epsilons]
  · simp [edgesAt, hs, Ne.symm hs]

theorem length_shifted (n : Nfa) (k : Nat) : (n.shifted k).length = n.size := by
  simp [shifted, size]

theorem size_mk (start final : Nat) (states : List Edges) :
    (Nfa.mk start final states.toArray).size = states.length := rfl

theorem length_link (states : List Edges) (source : Nat) (ts : List Nat) :
    (link states source ts).length = states.length := List.length_modify ..

section Constructions

variable {a b : Nfa} {s t : Nat} {l : Label}

theorem edge_symbol {c : Char} : (symbol c).Edge s l t ↔ s = 0 ∧ l = .char c ∧ t = 1 := by
  show (l, t) ∈ (#[[(.char c, 1)], []] : Array Edges)[s]?.getD [] ↔ _
  match s with
  | 0 => simp
  | 1 => simp
  | s + 2 => simp

theorem size_union (a b : Nfa) : (a.union b).size = a.size + b.size + 2 := by
  simp [union, size_mk, length_link, length_shifted]
  omega

theorem edge_union (ha : a.Proper) (hb : b.Proper) : (a.union b).Edge s l t ↔
    (s = 0 ∧ l = .epsilon ∧ (t = a.start + 1 ∨ t = b.start + (1 + a.size))) ∨
    (∃ p, s = p + 1 ∧ ∃ u, a.Edge p l u ∧ t = u + 1) ∨
    (∃ p, s = p + (1 + a.size) ∧ ∃ u, b.Edge p l u ∧ t = u + (1 + a.size)) ∨
    (s = a.final + 1 ∧ l = .epsilon ∧ t = 1 + a.size + b.size) ∨
    (s = b.final + (1 + a.size) ∧ l = .epsilon ∧ t = 1 + a.size + b.size) := by
  have hfa := ha.final_lt
  have hfb := hb.final_lt
  rw [union, edge_toArray, mem_edgesAt_link, mem_edgesAt_link]
  · simp only [mem_edgesAt_append, mem_edgesAt_single, mem_epsilons, mem_edgesAt_shifted,
      List.length_append, length_shifted, List.length_singleton, List.mem_cons, List.not_mem_nil,
      or_false, and_false, exists_false, or_assoc]
  · simp [length_shifted]
    omega
  · simp [length_link, length_shifted]
    omega

theorem embeds_union_left (ha : a.Proper) (hb : b.Proper) :
    Embeds (a.union b) a 1 [1 + a.size + b.size] := by
  constructor
  intro s t l hs
  rw [edge_union ha hb, List.mem_singleton]
  refine ⟨?_, ?_⟩
  · rintro (⟨h, -⟩ | ⟨p, h, hu⟩ | ⟨p, h, -⟩ | ⟨h, hl, ht⟩ | ⟨h, -⟩)
    · omega
    · obtain rfl : s = p := by omega
      exact Or.inl hu
    · omega
    · exact Or.inr ⟨by omega, hl, ht⟩
    · omega
  · rintro (hu | ⟨rfl, hl, ht⟩)
    · exact Or.inr (Or.inl ⟨s, rfl, hu⟩)
    · exact Or.inr (Or.inr (Or.inr (Or.inl ⟨rfl, hl, ht⟩)))

theorem embeds_union_right (ha : a.Proper) (hb : b.Proper) :
    Embeds (a.union b) b (1 + a.size) [1 + a.size + b.size] := by
  constructor
  intro s t l hs
  have hfa := ha.final_lt
  rw [edge_union ha hb, List.mem_singleton]
  refine ⟨?_, ?_⟩
  · rintro (⟨h, -⟩ | ⟨p, h, u, hu, -⟩ | ⟨p, h, hu⟩ | ⟨h, -⟩ | ⟨h, hl, ht⟩)
    · omega
    · have := hu.source_lt
      omega
    · obtain rfl : s = p := by omega
      exact Or.inl hu
    · omega
    · exact Or.inr ⟨by omega, hl, ht⟩
  · rintro (hu | ⟨rfl, hl, ht⟩)
    · exact Or.inr (Or.inr (Or.inl ⟨s, rfl, hu⟩))
    · exact Or.inr (Or.inr (Or.inr (Or.inr ⟨rfl, hl, ht⟩)))

theorem Proper.union (ha : a.Proper) (hb : b.Proper) : (a.union b).Proper := by
  have hsa := ha.start_lt
  have hsb := hb.start_lt
  refine ⟨?_, ?_, ?_⟩
  · rw [size_union]
    exact Nat.succ_pos _
  · rw [size_union]
    show 1 + a.size + b.size < _
    omega
  · intro s t l h
    rw [size_union]
    rcases (edge_union ha hb).mp h with ⟨-, -, rfl | rfl⟩ | ⟨p, -, u, hu, rfl⟩ |
      ⟨p, -, u, hu, rfl⟩ | ⟨-, -, rfl⟩ | ⟨-, -, rfl⟩
    · omega
    · omega
    · have := ha.target_lt hu
      omega
    · have := hb.target_lt hu
      omega
    · omega
    · omega

theorem size_concat (a b : Nfa) : (a.concat b).size = a.size + b.size := by
  simp [concat, size_mk, length_link, length_shifted]

theorem edge_concat (ha : a.Proper) : (a.concat b).Edge s l t ↔
    a.Edge s l t ∨ (∃ p, s = p + a.size ∧ ∃ u, b.Edge p l u ∧ t = u + a.size) ∨
    (s = a.final ∧ l = .epsilon ∧ t = b.start + a.size) := by
  have hfa := ha.final_lt
  rw [concat, edge_toArray, mem_edgesAt_link]
  · simp only [mem_edgesAt_append, mem_edgesAt_shifted, length_shifted, List.mem_singleton,
      Nat.add_zero, exists_eq_right', or_assoc]
  · simp [length_shifted]
    omega

theorem embeds_concat_left (ha : a.Proper) :
    Embeds (a.concat b) a 0 [b.start + a.size] := by
  constructor
  intro s t l hs
  rw [Nat.add_zero, edge_concat ha, List.mem_singleton]
  simp only [Nat.add_zero, exists_eq_right']
  refine or_congr_right (or_iff_right ?_)
  rintro ⟨p, h, -⟩
  omega

theorem embeds_concat_right (ha : a.Proper) : Embeds (a.concat b) b a.size [] := by
  constructor
  intro s t l hs
  have hfa := ha.final_lt
  rw [edge_concat ha]
  refine ⟨?_, ?_⟩
  · rintro (h | ⟨p, h, hu⟩ | ⟨h, -⟩)
    · have := h.source_lt
      omega
    · obtain rfl : s = p := by omega
      exact Or.inl hu
    · omega
  · rintro (hu | ⟨-, -, h⟩)
    · exact Or.inr (Or.inl ⟨s, rfl, hu⟩)
    · exact nomatch h

theorem Proper.concat (ha : a.Proper) (hb : b.Proper) : (a.concat b).Proper := by
  have hsb := hb.start_lt
  refine ⟨?_, ?_, ?_⟩
  · rw [size_concat]
    exact Nat.lt_add_right _ ha.start_lt
  · rw [size_concat, Nat.add_comm]
    exact Nat.add_lt_add_right hb.final_lt _
  · intro s t l h
    rw [size_concat]
    rcases (edge_concat ha).mp h with h | ⟨p, -, u, hu, rfl⟩ | ⟨-, -, rfl⟩
    · exact Nat.lt_add_right _ (ha.target_lt h)
    · have := hb.target_lt hu
      omega
    · omega

theorem size_star (a : Nfa) : a.star.size = a.size + 2 := by
  simp [star, size_mk, length_link, length_shifted]

theorem edge_star (ha : a.Proper) : a.star.Edge s l t ↔
    (s = 0 ∧ l = .epsilon ∧ (t = a.start + 1 ∨ t = 1 + a.size)) ∨
    (∃ p, s = p + 1 ∧ ∃ u, a.Edge p l u ∧ t = u + 1) ∨
    (s = a.final + 1 ∧ l = .epsilon ∧ (t = a.start + 1 ∨ t = 1 + a.size)) := by
  have hfa := ha.final_lt
  rw [star, edge_toArray, mem_edgesAt_link]
  · simp only [mem_edgesAt_append, mem_edgesAt_single, mem_epsilons, mem_edgesAt_shifted,
      List.length_append, length_shifted, List.length_singleton, List.mem_cons, List.not_mem_nil,
      or_false, and_false, exists_false, or_assoc]
  · simp [length_shifted]
    omega

theorem embeds_star (ha : a.Proper) : Embeds a.star a 1 [a.start + 1, 1 + a.size] := by
  constructor
  intro s t l hs
  rw [edge_star ha, List.mem_cons, List.mem_singleton]
  refine ⟨?_, ?_⟩
  · rintro (⟨h, -⟩ | ⟨p, h, hu⟩ | ⟨h, hl, ht⟩)
    · omega
    · obtain rfl : s = p := by omega
      exact Or.inl hu
    · exact Or.inr ⟨by omega, hl, ht⟩
  · rintro (hu | ⟨rfl, hl, ht⟩)
    · exact Or.inr (Or.inl ⟨s, rfl, hu⟩)
    · exact Or.inr (Or.inr ⟨rfl, hl, ht⟩)

theorem Proper.star (ha : a.Proper) : a.star.Proper := by
  have hsa := ha.start_lt
  refine ⟨?_, ?_, ?_⟩
  · rw [size_star]
    exact Nat.succ_pos _
  · rw [size_star]
    show 1 + a.size < _
    omega
  · intro s t l h
    rw [size_star]
    rcases (edge_star ha).mp h with ⟨-, -, rfl | rfl⟩ | ⟨p, -, u, hu, rfl⟩ | ⟨-, -, rfl | rfl⟩
    · omega
    · omega
    · have := ha.target_lt hu
      omega
    · omega
    · omega

theorem Proper.symbol (c : Char) : (symbol c).Proper := by
  refine ⟨Nat.zero_lt_two, Nat.one_lt_two, ?_⟩
  intro s t l h
  obtain ⟨-, -, rfl⟩ := edge_symbol.mp h
  exact Nat.one_lt_two

/-! ## The words of the constructions -/

theorem words_symbol (c : Char) : (symbol c).words = {[c]} := by
  ext w
  refine ⟨?_, ?_⟩
  · intro h
    have h : (symbol c).Path 0 w 1 := h
    cases h with
    | step hedge hrest =>
        obtain ⟨-, rfl, rfl⟩ := edge_symbol.mp hedge
        rw [hrest.of_sink fun l u hu => absurd (edge_symbol.mp hu).1 Nat.one_ne_zero]
        rfl
  · rintro rfl
    exact Path.step (edge_symbol.mpr ⟨rfl, rfl, rfl⟩) (.nil 1)

/-- A path through the block of `a` to the last state of an automaton spells a word of `a`,
when nothing leads on from the last state. -/
theorem Embeds.words {n : Nfa} {k last : Nat} (h : Embeds n a k [last]) (ha : a.Proper)
    (hlast : a.size + k ≤ last) (hsink : ∀ l u, ¬ n.Edge last l u) {w : List Char} :
    n.Path (a.start + k) w last ↔ w ∈ a.words := by
  refine ⟨?_, ?_⟩
  · intro hpath
    obtain ⟨u, v, rfl, hu, rfl⟩ := h.leave ha (K := (· = [])) ha.start_lt (by omega)
      (fun e he => Or.inl fun v hv => hv.of_sink (List.mem_singleton.mp he ▸ hsink)) hpath
    rw [List.append_nil]
    exact hu
  · intro hw
    have hpath := (h.lift hw).trans (h.exit ha List.mem_cons_self (.nil last))
    rwa [List.append_nil] at hpath

theorem union_sink (ha : a.Proper) (hb : b.Proper) (l : Label) (u : Nat) :
    ¬ (a.union b).Edge (1 + a.size + b.size) l u := by
  intro h
  have hfa := ha.final_lt
  have hfb := hb.final_lt
  rcases (edge_union ha hb).mp h with ⟨h, -⟩ | ⟨p, h, v, hv, -⟩ | ⟨p, h, v, hv, -⟩ |
    ⟨h, -⟩ | ⟨h, -⟩
  · omega
  · have := hv.source_lt
    omega
  · have := hv.source_lt
    omega
  · omega
  · omega

theorem words_union (ha : a.Proper) (hb : b.Proper) :
    (a.union b).words = a.words ∪ b.words := by
  have hsink := union_sink ha hb
  have hleft {w : List Char} := (embeds_union_left ha hb).words ha (by omega) hsink (w := w)
  have hright {w : List Char} := (embeds_union_right ha hb).words hb (by omega) hsink (w := w)
  ext w
  refine ⟨?_, ?_⟩
  · intro h
    have h : (a.union b).Path 0 w (1 + a.size + b.size) := h
    generalize hlast : 1 + a.size + b.size = last at h
    cases h with
    | nil _ => omega
    | step hedge hrest =>
        subst hlast
        rcases (edge_union ha hb).mp hedge with ⟨-, rfl, rfl | rfl⟩ | ⟨p, h, -⟩ | ⟨p, h, -⟩ |
          ⟨h, -⟩ | ⟨h, -⟩
        · exact Or.inl (hleft.mp hrest)
        · exact Or.inr (hright.mp hrest)
        all_goals omega
  · rintro (h | h)
    · exact Path.epsilon ((edge_union ha hb).mpr (Or.inl ⟨rfl, rfl, Or.inl rfl⟩)) (hleft.mpr h)
    · exact Path.epsilon ((edge_union ha hb).mpr (Or.inl ⟨rfl, rfl, Or.inr rfl⟩)) (hright.mpr h)

theorem words_concat (ha : a.Proper) (hb : b.Proper) :
    (a.concat b).words = {w | ∃ u ∈ a.words, ∃ v ∈ b.words, w = u ++ v} := by
  have hleft := embeds_concat_left ha (b := b)
  have hright := embeds_concat_right ha (b := b)
  ext w
  refine ⟨?_, ?_⟩
  · intro h
    have h : (a.concat b).Path (a.start + 0) w (b.final + a.size) := h
    obtain ⟨u, v, rfl, hu, hv⟩ := hleft.leave ha
      (K := fun v => (a.concat b).Path (b.start + a.size) v (b.final + a.size)) ha.start_lt
      (by omega) (fun e he => Or.inl fun v hv => List.mem_singleton.mp he ▸ hv) h
    exact ⟨u, hu, v, hright.stay hb hb.start_lt hv, rfl⟩
  · rintro ⟨u, hu, v, hv, rfl⟩
    exact (hleft.lift hu).trans (hleft.exit ha List.mem_cons_self (hright.lift hv))

theorem star_sink (ha : a.Proper) (l : Label) (u : Nat) : ¬ a.star.Edge (1 + a.size) l u := by
  intro h
  have hfa := ha.final_lt
  rcases (edge_star ha).mp h with ⟨h, -⟩ | ⟨p, h, v, hv, -⟩ | ⟨h, -⟩
  · omega
  · have := hv.source_lt
    omega
  · omega

/-- A path through the copy of `a` spells a word of `a` and goes round again from its final
state, or comes to its end there. -/
theorem repeated_of_path_star (ha : a.Proper) {w : List Char}
    (h : a.star.Path (a.start + 1) w (1 + a.size)) : w ∈ repeated a.words := by
  have hexits : ∀ e ∈ [a.start + 1, 1 + a.size],
      (∀ v, a.star.Path e v (1 + a.size) → v ∈ repeated a.words) ∨
        ∃ p < a.size, e = p + 1 ∧ ∀ u v, a.Path p u a.final → v ∈ repeated a.words →
          u ++ v ∈ repeated a.words := by
    intro e he
    rcases List.mem_cons.mp he with rfl | he
    · exact Or.inr ⟨a.start, ha.start_lt, rfl, fun u v hu hv => append_mem_repeated hu hv⟩
    · obtain rfl := List.mem_singleton.mp he
      refine Or.inl fun v hv => ?_
      rw [hv.of_sink (star_sink ha)]
      exact nil_mem_repeated _
  obtain ⟨u, v, rfl, hu, hv⟩ := (embeds_star ha).leave ha ha.start_lt (by omega) hexits h
  exact append_mem_repeated hu hv

/-- A state from which one can go round and come to the end has paths over all repetitions. -/
theorem path_star_of_repeated (ha : a.Proper) : ∀ {us : List (List Char)} {s : Nat},
    (∀ u ∈ us, u ∈ a.words) →
    (∀ t, t = a.start + 1 ∨ t = 1 + a.size → a.star.Edge s .epsilon t) →
    a.star.Path s us.flatten (1 + a.size) := by
  intro us
  induction us with
  | nil =>
      intro s _ hs
      exact .epsilon (hs _ (Or.inr rfl)) (.nil _)
  | cons u us ih =>
      intro s hus hs
      obtain ⟨hu, hus⟩ := List.forall_mem_cons.mp hus
      refine .epsilon (hs _ (Or.inl rfl)) (((embeds_star ha).lift hu).trans (ih hus ?_))
      intro t ht
      exact (edge_star ha).mpr (Or.inr (Or.inr ⟨rfl, rfl, ht⟩))

theorem words_star (ha : a.Proper) : a.star.words = repeated a.words := by
  ext w
  refine ⟨?_, ?_⟩
  · intro h
    have h : a.star.Path 0 w (1 + a.size) := h
    generalize hlast : 1 + a.size = last at h
    cases h with
    | nil _ => omega
    | step hedge hrest =>
        subst hlast
        rcases (edge_star ha).mp hedge with ⟨-, rfl, rfl | rfl⟩ | ⟨p, h, -⟩ | ⟨h, -⟩
        · exact repeated_of_path_star ha hrest
        · rw [hrest.of_sink (star_sink ha)]
          exact nil_mem_repeated _
        all_goals omega
  · rintro ⟨us, hus, rfl⟩
    exact path_star_of_repeated ha hus fun t ht => (edge_star ha).mpr (Or.inl ⟨rfl, rfl, ht⟩)

end Constructions

theorem proper_ofRegex (e : Regex) : (ofRegex e).Proper := by
  induction e with
  | symbol c => exact .symbol c
  | union l r ihl ihr => exact .union ihl ihr
  | concat l r ihl ihr => exact .concat ihl ihr
  | star e ih => exact .star ih

/-- The automaton of an expression accepts the words that the expression denotes. -/
theorem words_ofRegex (e : Regex) : (ofRegex e).words = e.words := by
  induction e with
  | symbol c => exact words_symbol c
  | union l r ihl ihr =>
      rw [ofRegex, words_union (proper_ofRegex l) (proper_ofRegex r), ihl, ihr]
      rfl
  | concat l r ihl ihr =>
      rw [ofRegex, words_concat (proper_ofRegex l) (proper_ofRegex r), ihl, ihr]
      rfl
  | star e ih =>
      rw [ofRegex, words_star (proper_ofRegex e), ih]
      rfl

end Nfa

end FrontEnd
