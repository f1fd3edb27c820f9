/-
# `Grammar.Analysis` — nullable symbols, FIRST and FOLLOW see every derivation tree

The nullable symbols are found in rounds.  A round that fires no new production is the
last to matter, and each round before it fires at least one, so there are as many rounds as
productions at most (`closed_nullable`).

FIRST and FOLLOW are searches, and membership in them is reachability (`mem_firstWith`,
`mem_follow`).  What a derivation tree shows is then found along a path: a tree
without leaves has a nullable root, the first leaf of a tree is in FIRST of its root, and
what comes behind a subtree is in FOLLOW of its symbol (`FromAll.upcoming_mem_follow`).
-/
import FrontEnd.Grammar.Analysis
import FrontEnd.Proofs.Grammar.Derivation
import Mathlib.Data.List.Basic

namespace FrontEnd

open Discovery FrontEnd.Derivation

namespace Grammar

/-! ## The rounds of the nullable symbols -/

section Rounds

variable {ps : Productions}

/-- The productions whose bodies are known to be nullable. -/
def firing (ps : Productions) (known : List Symbol) : Productions :=
  ps.filter fun p => p.body.all (· ∈ known)

/-- Nothing new can be found from what is known. -/
def Closed (ps : Productions) (known : List Symbol) : Prop :=
  ∀ p ∈ ps, (∀ x ∈ p.body, x ∈ known) → p.head ∈ known

theorem mem_firing {known : List Symbol} {p : Production} :
    p ∈ firing ps known ↔ p ∈ ps ∧ ∀ x ∈ p.body, x ∈ known := by
  simp [firing]

theorem mem_nullableAfter_succ {k : Nat} {x : Symbol} :
    x ∈ nullableAfter ps (k + 1) ↔ ∃ p ∈ firing ps (nullableAfter ps k), p.head = x := by
  show x ∈ (firing ps (nullableAfter ps k)).map (·.head) ↔ _
  rw [List.mem_map]

theorem nullableAfter_mono : ∀ (k : Nat) {x : Symbol}, x ∈ nullableAfter ps k →
    x ∈ nullableAfter ps (k + 1) := by
  intro k
  induction k with
  | zero =>
      intro x h
      exact absurd h List.not_mem_nil
  | succ k ih =>
      intro x h
      obtain ⟨p, hp, rfl⟩ := mem_nullableAfter_succ.mp h
      obtain ⟨hmem, hbody⟩ := mem_firing.mp hp
      refine mem_nullableAfter_succ.mpr ⟨p, mem_firing.mpr ⟨hmem, ?_⟩, rfl⟩
      intro y hy
      exact ih (hbody y hy)

theorem firing_sublist {known known' : List Symbol} (h : ∀ x ∈ known, x ∈ known') :
    (firing ps known).Sublist (firing ps known') := by
  refine List.monotone_filter_right ps fun p hp => ?_
  simp only [List.all_eq_true, decide_eq_true_eq] at hp ⊢
  intro x hx
  exact h x (hp x hx)

/-- Up to a round that finds nothing new, every round fires one production more. -/
theorem closed_or_lt_firing (ps : Productions) (k : Nat) :
    Closed ps (nullableAfter ps k) ∨ k < (firing ps (nullableAfter ps k)).length := by
  induction k with
  | zero =>
      by_cases h : firing ps (nullableAfter ps 0) = []
      · left
        intro p hp hbody
        have hfire := mem_firing.mpr ⟨hp, hbody⟩
        rw [h] at hfire
        exact absurd hfire List.not_mem_nil
      · right
        exact List.length_pos_iff.mpr h
  | succ k ih =>
      have hsub : (firing ps (nullableAfter ps k)).Sublist
          (firing ps (nullableAfter ps (k + 1))) :=
        firing_sublist fun _ hx => nullableAfter_mono k hx
      by_cases hsame : firing ps (nullableAfter ps k) = firing ps (nullableAfter ps (k + 1))
      · left
        intro p hp hbody
        have hfire := mem_firing.mpr ⟨hp, hbody⟩
        rw [← hsame] at hfire
        exact mem_nullableAfter_succ.mpr ⟨p, hfire, rfl⟩
      · rcases ih with hclosed | hlt
        · -- a closed round cannot fire anything the next one does not
          refine absurd (hsub.antisymm ?_) hsame
          refine firing_sublist fun x hx => ?_
          obtain ⟨p, hp, rfl⟩ := mem_nullableAfter_succ.mp hx
          obtain ⟨hmem, hbody⟩ := mem_firing.mp hp
          exact hclosed p hmem hbody
        · right
          have hne : (firing ps (nullableAfter ps k)).length ≠
              (firing ps (nullableAfter ps (k + 1))).length := fun h => hsame (hsub.eq_of_length h)
          have hle := hsub.length_le
          omega

end Rounds

variable {g : Grammar}

/-- A head whose body is nullable is nullable. -/
theorem closed_nullable (g : Grammar) : Closed g.productions g.nullable := by
  rcases closed_or_lt_firing g.productions g.productions.length with h | h
  · exact h
  · exact absurd h (Nat.not_lt.mpr (List.length_filter_le _ _))

/-! ## FIRST is what can be reached -/

theorem mem_leading {nullable : List Symbol} {x : Symbol} {xs : List Symbol} :
    x ∈ leading nullable xs ↔
      ∃ before after, xs = before ++ x :: after ∧ ∀ y ∈ before, y ∈ nullable := by
  induction xs with
  | nil => simp [leading]
  | cons s rest ih =>
      refine ⟨?_, ?_⟩
      · intro h
        have hcases : x = s ∨ s ∈ nullable ∧ x ∈ leading nullable rest := by
          unfold leading at h
          split at h
          · rename_i hs
            exact (List.mem_cons.mp h).imp_right fun hx => ⟨hs, hx⟩
          · exact Or.inl (List.mem_singleton.mp h)
        rcases hcases with rfl | ⟨hs, hx⟩
        · exact ⟨[], rest, rfl, nofun⟩
        · obtain ⟨before, after, rfl, hbefore⟩ := ih.mp hx
          exact ⟨s :: before, after, rfl, List.forall_mem_cons.mpr ⟨hs, hbefore⟩⟩
      · rintro ⟨before, after, heq, hbefore⟩
        cases before with
        | nil =>
            obtain ⟨rfl, rfl⟩ := List.cons.inj heq
            unfold leading
            split <;> exact List.mem_cons_self
        | cons y before =>
            obtain ⟨rfl, rfl⟩ := List.cons.inj heq
            obtain ⟨hs, hbefore⟩ := List.forall_mem_cons.mp hbefore
            rw [leading, if_pos hs]
            exact List.mem_cons_of_mem _ (ih.mpr ⟨before, after, rfl, hbefore⟩)

theorem leading_subset {nullable xs : List Symbol} {x : Symbol} (h : x ∈ leading nullable xs) :
    x ∈ xs := by
  obtain ⟨before, after, rfl, -⟩ := mem_leading.mp h
  exact List.mem_append_right _ List.mem_cons_self

theorem mem_firstSteps {nullable : List Symbol} {s x : Symbol} :
    x ∈ g.firstSteps nullable s ↔
      ∃ p ∈ g.productions, p.head = s ∧ x ∈ leading nullable p.body := by
  simp only [firstSteps, List.mem_flatMap]
  refine exists_congr fun p => and_congr_right fun _ => ?_
  split
  · rename_i h
    simp [h]
  · rename_i h
    simp [h]

theorem mem_firstWith {nullable xs : List Symbol} {x : Symbol} :
    x ∈ g.firstWith nullable xs ↔
      g.isTerminal x = true ∧ Reachable (g.firstSteps nullable) (leading nullable xs) x := by
  rw [firstWith, SortedSet.mem_ofList, List.mem_filter, and_comm]
  refine and_congr_right fun _ => ?_
  have hroots : ∀ y ∈ leading nullable xs, y ∈ xs ++ g.productions.flatMap (·.body) := by
    intro y hy
    exact List.mem_append_left _ (leading_subset hy)
  refine mem_discover_iff hroots ?_ (Nat.le_of_eq List.length_append)
  intro y _ z hz
  obtain ⟨p, hp, -, hlead⟩ := mem_firstSteps.mp hz
  exact List.mem_append_right _ (List.mem_flatMap.mpr ⟨p, hp, leading_subset hlead⟩)

/-! ## FOLLOW is what can be reached -/

theorem mem_behind {s : Symbol} {xs rest : List Symbol} :
    rest ∈ behind s xs ↔ ∃ before, xs = before ++ s :: rest := by
  induction xs with
  | nil => simp [behind]
  | cons x xs ih =>
      have hcases : rest ∈ behind s (x :: xs) ↔ (x = s ∧ xs = rest) ∨ rest ∈ behind s xs := by
        rw [behind]
        split
        · rename_i h
          simp [h, eq_comm]
        · rename_i h
          simp [h]
      rw [hcases, ih]
      refine ⟨?_, ?_⟩
      · rintro (⟨rfl, rfl⟩ | ⟨before, rfl⟩)
        · exact ⟨[], rfl⟩
        · exact ⟨x :: before, rfl⟩
      · rintro ⟨before, heq⟩
        cases before with
        | nil => exact Or.inl (List.cons.inj heq)
        | cons y before => exact Or.inr ⟨before, (List.cons.inj heq).2⟩

theorem mem_followSteps {nullable : List Symbol} {s h : Symbol} :
    h ∈ g.followSteps nullable s ↔
      ∃ p ∈ g.productions, p.head = h ∧
        ∃ before after, p.body = before ++ s :: after ∧ ∀ x ∈ after, x ∈ nullable := by
  simp only [followSteps, List.mem_flatMap, List.mem_filterMap, mem_behind]
  refine exists_congr fun p => and_congr_right fun _ => ?_
  refine ⟨?_, ?_⟩
  · rintro ⟨after, ⟨before, hbody⟩, hif⟩
    split at hif
    · rename_i hall
      exact ⟨Option.some.inj hif, before, after, hbody, by simpa using hall⟩
    · exact nomatch hif
  · rintro ⟨rfl, before, after, hbody, hall⟩
    exact ⟨after, ⟨before, hbody⟩, if_pos (by simpa using hall)⟩

theorem mem_followHere {nullable : List Symbol} {s x : Symbol} :
    x ∈ g.followHere nullable s ↔
      (∃ p ∈ g.productions, ∃ before after, p.body = before ++ s :: after ∧
        x ∈ g.firstWith nullable after) ∨ s = g.start ∧ x = endMarker := by
  have hend : x ∈ (if s = g.start then [endMarker] else []) ↔ s = g.start ∧ x = endMarker := by
    split <;> simp [*]
  simp only [followHere, List.mem_append, hend, List.mem_flatMap, mem_behind, SortedSet.mem_def]
  refine or_congr_left (exists_congr fun p => and_congr_right fun _ => ?_)
  refine ⟨?_, ?_⟩
  · rintro ⟨after, ⟨before, hbody⟩, hx⟩
    exact ⟨before, after, hbody, hx⟩
  · rintro ⟨before, after, hbody, hx⟩
    exact ⟨after, ⟨before, hbody⟩, hx⟩

theorem mem_follow {s x : Symbol} :
    x ∈ g.follow s ↔ g.isTerminal s ≠ true ∧
      ∃ s', Reachable (g.followSteps g.nullable) [s] s' ∧ x ∈ g.followHere g.nullable s' := by
  rw [follow]
  split
  · rename_i h
    exact iff_of_false (List.not_mem_nil) fun hx => hx.1 h
  · rename_i h
    simp only [SortedSet.mem_ofList, List.mem_flatMap]
    have hreach {s' : Symbol} : s' ∈ discover (g.followSteps g.nullable)
        (g.productions.length + 1) [s] ↔ Reachable (g.followSteps g.nullable) [s] s' := by
      have hroot : ∀ y ∈ [s], y ∈ s :: g.productions.map (·.head) := by
        intro y hy
        obtain rfl := List.mem_singleton.mp hy
        exact List.mem_cons_self
      refine mem_discover_iff hroot ?_ (by simp)
      intro y _ z hz
      obtain ⟨p, hp, rfl, -⟩ := mem_followSteps.mp hz
      exact List.mem_cons_of_mem _ (List.mem_map.mpr ⟨p, hp, rfl⟩)
    simp only [hreach]
    exact (and_iff_right h).symm

theorem endMarker_mem_follow_start (g : Grammar) : endMarker ∈ g.follow g.start := by
  obtain ⟨p, hp, hhead, -⟩ := g.production?_augmenting
  refine mem_follow.mpr ⟨?_, g.start, .root List.mem_cons_self, ?_⟩
  · rw [← hhead]
    exact not_isTerminal_head hp
  · exact mem_followHere.mpr (Or.inr ⟨rfl, rfl⟩)

theorem isTerminal_of_mem_follow (hend : g.isTerminal endMarker = true) {s x : Symbol}
    (h : x ∈ g.follow s) : g.isTerminal x = true := by
  obtain ⟨-, s', -, hx⟩ := mem_follow.mp h
  rcases mem_followHere.mp hx with ⟨p, -, before, after, -, hx⟩ | ⟨-, rfl⟩
  · exact (mem_firstWith.mp hx).1
  · exact hend

/-- Where the start symbol is in no body, only the end marker follows it. -/
theorem eq_endMarker_of_mem_follow_start (hstart : ∀ p ∈ g.productions, g.start ∉ p.body)
    {x : Symbol} (h : x ∈ g.follow g.start) : x = endMarker := by
  have hnone {p : Production} (hp : p ∈ g.productions) {before after : List Symbol}
      (hbody : p.body = before ++ g.start :: after) : False :=
    hstart p hp (hbody ▸ List.mem_append_right _ List.mem_cons_self)
  obtain ⟨-, s, hreach, hx⟩ := mem_follow.mp h
  obtain rfl : s = g.start := by
    clear hx
    induction hreach with
    | root hs => exact List.mem_singleton.mp hs
    | step _ hs ih =>
        obtain ⟨p, hp, -, before, after, hbody, -⟩ := mem_followSteps.mp (ih ▸ hs)
        exact (hnone hp hbody).elim
  rcases mem_followHere.mp hx with ⟨p, hp, before, after, hbody, -⟩ | ⟨-, hx⟩
  · exact (hnone hp hbody).elim
  · exact hx

section Occurrence

variable {i : Nat} {p : Production} {before after : List Symbol} {s x : Symbol}

/-- What can stand first behind an occurrence of a symbol follows the symbol. -/
theorem mem_follow_of_first (hp : g.production? i = some p) (hbody : p.body = before ++ s :: after)
    (hs : g.isTerminal s ≠ true) (hx : x ∈ g.firstWith g.nullable after) : x ∈ g.follow s :=
  mem_follow.mpr ⟨hs, s, .root List.mem_cons_self,
    mem_followHere.mpr (Or.inl ⟨p, mem_of_production? hp, before, after, hbody, hx⟩)⟩

/-- What follows a head follows the symbols that can end its body. -/
theorem mem_follow_of_head (hp : g.production? i = some p) (hbody : p.body = before ++ s :: after)
    (hs : g.isTerminal s ≠ true) (hafter : ∀ y ∈ after, y ∈ g.nullable)
    (hx : x ∈ g.follow p.head) : x ∈ g.follow s := by
  obtain ⟨-, s', hreach, hhere⟩ := mem_follow.mp hx
  have hstep : p.head ∈ g.followSteps g.nullable s :=
    mem_followSteps.mpr ⟨p, mem_of_production? hp, rfl, before, after, hbody, hafter⟩
  refine mem_follow.mpr ⟨hs, s', Reachable.mono (fun y hy => ?_) hreach, hhere⟩
  obtain rfl := List.mem_singleton.mp hy
  exact .step (.root List.mem_cons_self) hstep

end Occurrence

end Grammar

/-! ## What derivation trees show -/

/-- The symbol that a parser sees before the rest of its input. -/
def upcoming (rest : List Symbol) : Symbol := rest.head?.getD endMarker

namespace Derivation

variable {g : Grammar}

mutual

theorem From.mem_nullable {x : Symbol} {t : Derivation} (h : From g x t) (hy : t.yield = []) :
    x ∈ g.nullable := by
  cases h with
  | leaf _ => exact nomatch hy
  | node hp hts =>
      exact g.closed_nullable _ (Grammar.mem_of_production? hp) (hts.mem_nullable hy)

theorem FromAll.mem_nullable {xs : List Symbol} {ts : List Derivation} (h : FromAll g xs ts)
    (hy : yieldAll ts = []) : ∀ x ∈ xs, x ∈ g.nullable := by
  cases h with
  | nil => exact nofun
  | cons ht hts =>
      rw [yieldAll_cons] at hy
      obtain ⟨hy, hys⟩ := List.append_eq_nil_iff.mp hy
      exact List.forall_mem_cons.mpr ⟨ht.mem_nullable hy, hts.mem_nullable hys⟩

end

mutual

theorem From.first_reachable {x a : Symbol} {w : List Symbol} {t : Derivation} (h : From g x t)
    (hy : t.yield = a :: w) :
    Reachable (g.firstSteps g.nullable) [x] a := by
  cases h with
  | leaf _ =>
      obtain ⟨rfl, -⟩ := List.cons.inj hy
      exact .root List.mem_cons_self
  | @node i p children hp hts =>
      refine Reachable.mono (fun y hlead => ?_) (hts.first_reachable hy)
      refine .step (.root List.mem_cons_self) ?_
      exact Grammar.mem_firstSteps.mpr ⟨p, Grammar.mem_of_production? hp, rfl, hlead⟩

theorem FromAll.first_reachable {a : Symbol} {xs w : List Symbol} {ts : List Derivation}
    (h : FromAll g xs ts) (hy : yieldAll ts = a :: w) :
    Reachable (g.firstSteps g.nullable) (Grammar.leading g.nullable xs) a := by
  cases h with
  | nil => exact nomatch hy
  | @cons x xs t ts ht hts =>
      rw [yieldAll_cons] at hy
      cases hyield : t.yield with
      | nil =>
          rw [hyield, List.nil_append] at hy
          rw [Grammar.leading, if_pos (ht.mem_nullable hyield)]
          refine Reachable.mono (fun y hlead => ?_) (hts.first_reachable hy)
          exact .root (List.mem_cons_of_mem _ hlead)
      | cons b v =>
          rw [hyield, List.cons_append] at hy
          obtain ⟨rfl, -⟩ := List.cons.inj hy
          refine Reachable.mono (fun y hroot => ?_) (ht.first_reachable hyield)
          obtain rfl := List.mem_singleton.mp hroot
          exact .root (Grammar.mem_leading.mpr ⟨[], xs, rfl, nofun⟩)

end

/-- Behind a subtree comes a symbol of FOLLOW, when behind the tree of its head one does. -/
theorem FromAll.upcoming_mem_follow {i : Nat} {p : Production} {x : Symbol}
    {before xs rest : List Symbol} {ts : List Derivation} (h : FromAll g xs ts)
    (hp : g.production? i = some p) (hbody : p.body = before ++ x :: xs)
    (hx : g.isTerminal x ≠ true)
    (hrest : upcoming rest ∈ g.follow p.head) : upcoming (yieldAll ts ++ rest) ∈ g.follow x := by
  cases hy : yieldAll ts with
  | nil => exact Grammar.mem_follow_of_head hp hbody hx (h.mem_nullable hy) hrest
  | cons a w =>
      refine Grammar.mem_follow_of_first hp hbody hx (Grammar.mem_firstWith.mpr ⟨?_, ?_⟩)
      · exact h.yield_terminal a (hy ▸ List.mem_cons_self)
      · exact h.first_reachable hy

end Derivation

end FrontEnd
