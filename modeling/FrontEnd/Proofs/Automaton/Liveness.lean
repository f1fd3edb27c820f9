/-
# `Automaton.Liveness` — a machine is dead only when nothing can be accepted any more

A dead configuration stays dead, so no text read on from there is accepted.  For the converse
a machine must be *live*: each configuration behind a word that is not dead has a text that
leads on to acceptance (`Machine.Live`).  Then the early stop of a run answers exactly the
question whether there is anything left to wait for (`Live.exact`).

The machine of an automaton is live when each of its states has a path to the final state
(`Nfa.Live`).  The constructions keep this: a state in the block of a part has the path of that
part to its final state, moved, and an exit from there (`Embeds.leads`).  The machine of the
subset construction is dead at the same words as that of the sets.
-/
import FrontEnd.Proofs.Automaton.Machine
import FrontEnd.Proofs.Automaton.Simulation

namespace FrontEnd

namespace Machine

variable {σ : Type} {m : Machine σ}

/-! ## The configurations behind words -/

/-- The configuration behind a word, from the start on. -/
def behind (m : Machine σ) (w : List Char) : σ := w.foldl m.step m.start

theorem behind_append (m : Machine σ) (w v : List Char) :
    m.behind (w ++ v) = v.foldl m.step (m.behind w) := List.foldl_append

/-- A run stops behind a part of the text. -/
theorem exists_advance_eq (m : Machine σ) : ∀ (text : List Char) (s : σ),
    ∃ w : List Char, m.advance s text = w.foldl m.step s := by
  intro text
  induction text with
  | nil =>
      intro s
      exact ⟨[], rfl⟩
  | cons c text ih =>
      intro s
      rw [advance]
      split
      · exact ⟨[c], rfl⟩
      · obtain ⟨w, hw⟩ := ih (m.step s c)
        exact ⟨c :: w, hw⟩

/-- A scan stops where a run does. -/
theorem scan_fst (m : Machine σ) : ∀ (text : List Char) (s : σ),
    (m.scan s text).1 = m.advance s text := by
  intro text
  induction text with
  | nil =>
      intro s
      rfl
  | cons c text ih =>
      intro s
      simp only [scan, advance]
      split
      · rfl
      · exact ih (m.step s c)

theorem foldl_feed (m : Machine σ) (v : List Char) (s : σ) :
    (v.map Operation.feed).foldl (fun s op => (m.perform s op).2) s = v.foldl m.step s :=
  List.foldl_map

theorem after_feed (m : Machine σ) (w : List Char) : m.after (w.map .feed) = m.behind w :=
  m.foldl_feed w m.start

theorem after_append_feed (m : Machine σ) (ops : List Operation) (v : List Char) :
    m.after (ops ++ v.map .feed) = v.foldl m.step (m.after ops) := by
  rw [after, List.foldl_append, foldl_feed]
  rfl

/-- An operation leaves the machine behind a word, if it was behind one. -/
theorem exists_perform_eq (m : Machine σ) (op : Operation) (w : List Char) :
    ∃ w', (m.perform (m.behind w) op).2 = m.behind w' := by
  cases op with
  | feed c => exact ⟨w ++ [c], (m.behind_append w [c]).symm⟩
  | reset => exact ⟨[], rfl⟩
  | run text => exact m.exists_advance_eq text.toList m.start
  | longestPrefix text =>
      obtain ⟨w', hw'⟩ := m.exists_advance_eq text.toList m.start
      exact ⟨w', (m.scan_fst text.toList m.start).trans hw'⟩

/-- Whatever has been asked, the machine is behind some word. -/
theorem exists_after_eq (m : Machine σ) (ops : List Operation) :
    ∃ w, m.after ops = m.behind w := by
  induction ops using List.reverseRecOn with
  | nil => exact ⟨[], rfl⟩
  | append_singleton ops op ih =>
      obtain ⟨w, hw⟩ := ih
      rw [after, List.foldl_concat, ← after, hw]
      exact m.exists_perform_eq op w

/-! ## Live machines -/

/-- Behind each word the machine is dead, or some text leads on to acceptance. -/
def Live (m : Machine σ) : Prop :=
  ∀ w, m.dead (m.behind w) = false → ∃ v, w ++ v ∈ m.wordsFrom m.start

/-- Being dead answers the question whether anything can be accepted any more. -/
structure Exact (m : Machine σ) : Prop where
  /-- A word leads to a dead configuration exactly when no text that begins with it is accepted. -/
  dead_word_iff : ∀ w : List Char,
    m.dead (m.after (w.map .feed)) = true ↔ ∀ v, m.accepts (w ++ v) = false
  /-- After any operations the machine is dead exactly when no text read on leads to acceptance. -/
  dead_after_iff : ∀ ops : List Operation,
    m.dead (m.after ops) = true ↔
      ∀ v : List Char, m.accepting (m.after (ops ++ v.map .feed)) = false
  /-- A run, which stops early, answers as one to the end of the text. -/
  accepts_eq : ∀ text : List Char, m.accepts text = m.accepting (m.after (text.map .feed))
  /-- A scan, which stops early, finds the longest of all accepted prefixes. -/
  longestPrefix_eq_some_iff : ∀ (text : List Char) (k : Nat),
    m.longestPrefix text = some k ↔
      IsGreatest {k | 0 < k ∧ k ≤ text.length ∧ m.accepts (text.take k) = true} k
  /-- A scan finds nothing only when no prefix is accepted. -/
  longestPrefix_eq_none_iff : ∀ text : List Char,
    m.longestPrefix text = none ↔
      ∀ k, 0 < k → k ≤ text.length → m.accepts (text.take k) = false

theorem Lasting.accepts_eq (hm : m.Lasting) (text : List Char) :
    m.accepts text = m.accepting (m.behind text) :=
  Bool.eq_iff_iff.mpr (accepting_advance hm)

theorem Lasting.prefixLengths_eq (hm : m.Lasting) (text : List Char) :
    prefixLengths (m.wordsFrom m.start) text =
      {k | 0 < k ∧ k ≤ text.length ∧ m.accepts (text.take k) = true} := by
  ext k
  exact and_congr_right' (and_congr_right' (accepting_advance hm).symm)

/-- Behind a word a live machine is dead when nothing that begins with it is accepted. -/
theorem Live.dead_behind_iff (hlive : m.Live) (hm : m.Lasting) (w : List Char) :
    m.dead (m.behind w) = true ↔ ∀ v, m.accepting (m.behind (w ++ v)) = false := by
  refine ⟨?_, ?_⟩
  · intro hdead v
    rw [behind_append]
    exact Bool.eq_false_iff.mpr (hm.notMem_wordsFrom v hdead)
  · intro hnone
    by_contra hdead
    obtain ⟨v, hv⟩ := hlive w (Bool.eq_false_iff.mpr hdead)
    exact Bool.false_ne_true ((hnone v).symm.trans hv)

theorem Live.exact (hlive : m.Live) (hm : m.Lasting) : m.Exact := by
  refine ⟨?_, ?_, ?_, ?_, ?_⟩
  · intro w
    rw [after_feed, hlive.dead_behind_iff hm]
    exact forall_congr' fun v => by rw [hm.accepts_eq]
  · intro ops
    obtain ⟨w, hw⟩ := m.exists_after_eq ops
    rw [hw, hlive.dead_behind_iff hm]
    exact forall_congr' fun v => by rw [after_append_feed, hw, behind_append]
  · intro text
    rw [after_feed, hm.accepts_eq]
  · intro text k
    rw [← hm.prefixLengths_eq]
    exact scan_eq_some_iff hm
  · intro text
    refine (scan_eq_none_iff hm).trans (forall_congr' fun k => ?_)
    rw [hm.prefixLengths_eq]
    simp

end Machine

namespace Nfa

variable {n a b : Nfa} {s t u : Nat}

/-! ## States that lead to the final state -/

/-- `n.Leads s t`: some path leads from `s` to `t`. -/
def Leads (n : Nfa) (s t : Nat) : Prop := ∃ w, n.Path s w t

/-- The final state can be reached from every state. -/
def Live (n : Nfa) : Prop := ∀ s < n.size, n.Leads s n.final

theorem Leads.refl (n : Nfa) (s : Nat) : n.Leads s s := ⟨[], .nil s⟩

theorem Leads.trans (h : n.Leads s t) (h' : n.Leads t u) : n.Leads s u := by
  obtain ⟨v, hv⟩ := h
  obtain ⟨w, hw⟩ := h'
  exact ⟨v ++ w, hv.trans hw⟩

theorem Leads.step {l : Label} (hedge : n.Edge s l t) (h : n.Leads t u) : n.Leads s u := by
  obtain ⟨w, hw⟩ := h
  exact ⟨l.word ++ w, .step hedge hw⟩

/-- In the block of a live automaton every state leads to the final state of the block. -/
theorem Embeds.leads {k : Nat} {exits : List Nat} (h : Embeds n a k exits) (hlive : a.Live)
    (hs : s < a.size) : n.Leads (s + k) (a.final + k) := by
  obtain ⟨w, hw⟩ := hlive s hs
  exact ⟨w, h.lift hw⟩

/-- In the block of a live automaton every state leads to the exits. -/
theorem Embeds.leads_exit {k e : Nat} {exits : List Nat} (h : Embeds n a k exits)
    (ha : a.Proper) (hlive : a.Live) (he : e ∈ exits) (hs : s < a.size) : n.Leads (s + k) e :=
  (h.leads hlive hs).trans ⟨[], h.exit ha he (.nil e)⟩

theorem Live.symbol (c : Char) : (symbol c).Live := by
  intro s hs
  match s, hs with
  | 0, _ => exact .step (edge_symbol.mpr ⟨rfl, rfl, rfl⟩) (.refl _ 1)
  | 1, _ => exact .refl _ 1

theorem Live.union (ha : a.Proper) (hb : b.Proper) (hla : a.Live) (hlb : b.Live) :
    (a.union b).Live := by
  have hleft {s : Nat} (hs : s < a.size) : (a.union b).Leads (s + 1) (a.union b).final :=
    (embeds_union_left ha hb).leads_exit ha hla List.mem_cons_self hs
  have hright {s : Nat} (hs : s < b.size) :
      (a.union b).Leads (s + (1 + a.size)) (a.union b).final :=
    (embeds_union_right ha hb).leads_exit hb hlb List.mem_cons_self hs
  intro s hs
  rw [size_union] at hs
  -- the new start state, the block of `a`, the block of `b`, the new final state
  rcases Nat.eq_zero_or_pos s with rfl | hpos
  · exact .step ((edge_union ha hb).mpr (Or.inl ⟨rfl, rfl, Or.inl rfl⟩)) (hleft ha.start_lt)
  rcases Nat.lt_or_ge s (1 + a.size) with hs' | hs'
  · obtain ⟨p, rfl⟩ := Nat.exists_eq_add_of_le' hpos
    exact hleft (by omega)
  obtain ⟨q, rfl⟩ := Nat.exists_eq_add_of_le' hs'
  rcases Nat.lt_or_ge q b.size with hq | hq
  · exact hright hq
  · obtain rfl : q = b.size := by omega
    rw [Nat.add_comm b.size]
    exact .refl _ _

theorem Live.concat (ha : a.Proper) (hb : b.Proper) (hla : a.Live) (hlb : b.Live) :
    (a.concat b).Live := by
  have hright {s : Nat} (hs : s < b.size) : (a.concat b).Leads (s + a.size) (a.concat b).final :=
    (embeds_concat_right ha).leads hlb hs
  intro s hs
  rw [size_concat] at hs
  rcases Nat.lt_or_ge s a.size with hs' | hs'
  · exact ((embeds_concat_left ha).leads_exit ha hla List.mem_cons_self hs').trans
      (hright hb.start_lt)
  · obtain ⟨p, rfl⟩ := Nat.exists_eq_add_of_le' hs'
    exact hright (by omega)

theorem Live.star (ha : a.Proper) (hla : a.Live) : a.star.Live := by
  intro s hs
  rw [size_star] at hs
  rcases Nat.eq_zero_or_pos s with rfl | hpos
  · exact .step ((edge_star ha).mpr (Or.inl ⟨rfl, rfl, Or.inr rfl⟩)) (.refl _ _)
  obtain ⟨p, rfl⟩ := Nat.exists_eq_add_of_le' hpos
  rcases Nat.lt_or_ge p a.size with hp | hp
  · exact (embeds_star ha).leads_exit ha hla (List.mem_cons_of_mem _ List.mem_cons_self) hp
  · obtain rfl : p = a.size := by omega
    rw [Nat.add_comm a.size]
    exact .refl _ _

theorem live_ofRegex (e : Regex) : (ofRegex e).Live := by
  induction e with
  | symbol c => exact .symbol c
  | union l r ihl ihr => exact .union (proper_ofRegex l) (proper_ofRegex r) ihl ihr
  | concat l r ihl ihr => exact .concat (proper_ofRegex l) (proper_ofRegex r) ihl ihr
  | star e ih => exact .star (proper_ofRegex e) ih

/-! ## The machines of the constructions -/

theorem Live.machine (hlive : n.Live) (hn : n.Proper) : n.machine.Live := by
  intro w hw
  rw [wordsFrom_machine hn]
  obtain ⟨q, hq⟩ : ∃ q, q ∈ n.machine.behind w := by
    by_contra hnone
    rw [not_exists] at hnone
    exact Bool.false_ne_true (hw.symm.trans (SortedSet.isEmpty_iff.mpr hnone))
  obtain ⟨s, hs, hpath⟩ := (mem_foldl_move hn).mp hq
  obtain rfl := List.mem_singleton.mp hs
  obtain ⟨v, hv⟩ := hlive q (hpath.target_lt hn hn.start_lt)
  exact ⟨v, hpath.trans hv⟩

theorem Live.toDfa (hlive : n.Live) (hn : n.Proper) : n.toDfa.machine.Live := by
  intro w hw
  rw [wordsFrom_toDfa hn, ← wordsFrom_machine hn]
  refine hlive.machine hn w ?_
  rw [← hw]
  exact ((Stands.foldl hn w (stands_start n)).dead hn).symm

/-- **The dead configuration is exact.**  Of an automaton made by any constructions, both
machines are dead exactly when nothing can be accepted any more; so to stop there loses no
match. -/
theorem exact_machines (e : Regex) :
    (ofRegex e).machine.Exact ∧ (ofRegex e).toDfa.machine.Exact := by
  have hn := proper_ofRegex e
  have hlive := live_ofRegex e
  exact ⟨(hlive.machine hn).exact (lasting_machine hn),
    (hlive.toDfa hn).exact (Dfa.lasting_machine _)⟩

end Nfa

end FrontEnd
