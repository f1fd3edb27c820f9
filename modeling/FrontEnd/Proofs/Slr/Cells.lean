/-
# `Slr.Cells` — what each cell of a table holds, and which conflict comes first

The claims are written in a fixed order, which `turn` makes a number: all shifts before all
completed items, and among these by state, production and symbol (`claims_ascending`).  On one
cell only the production counts, where a shift has none and so comes first (`turn_lt_iff`).

Both answers of `build` are read off that order.  Where the later action wins, a cell is left with
the claim whose turn comes last (`foldlM_write_last`).  Where conflicts are refused, writing stops
at the first claim that finds its cell taken (`foldlM_write_error`); all claims whose turn came
before it have been written side by side, so among those there was no conflict.
-/
import FrontEnd.Proofs.Slr.Policy
import FrontEnd.Proofs.Slr.Table
import Mathlib.Data.Prod.Lex
import Mathlib.Data.Set.Subsingleton
import Mathlib.Data.String.Basic
import Mathlib.Order.WithBot

namespace FrontEnd

namespace Action

/-- The production whose completed item asks for an action; a shift has none. -/
def source (g : Grammar) : Action → WithBot Nat
  | shift _ => ⊥
  | reduce production => .some production
  | accept => .some g.augmenting

/-- Shifts are written in the first round, the rest in the second. -/
def round : Action → Nat
  | shift _ => 0
  | _ => 1

end Action

namespace Table

variable {g : Grammar}

/-! ## The order of writing -/

/-- When a claim is written. -/
def turn (g : Grammar) (c : Claim) : Nat ×ₗ Nat ×ₗ WithBot Nat ×ₗ Symbol :=
  toLex (c.action.round, toLex (c.state, toLex (c.action.source g, c.symbol)))

theorem turn_lt {c d : Claim} : turn g c < turn g d ↔
    c.action.round < d.action.round ∨ c.action.round = d.action.round ∧
      (c.state < d.state ∨ c.state = d.state ∧
        (c.action.source g < d.action.source g ∨ c.action.source g = d.action.source g ∧
          c.symbol < d.symbol)) := by
  simp only [turn, Prod.Lex.toLex_lt_toLex]

/-- On one cell, the claim of a larger production is written later, and the shift first. -/
theorem turn_lt_iff {q : Nat} {x : Symbol} {a b : Action} :
    turn g ⟨q, x, a⟩ < turn g ⟨q, x, b⟩ ↔ a.source g < b.source g := by
  rw [turn_lt]
  cases a <;> cases b <;> simp [Action.round, Action.source]

theorem round_of_source_lt {a b : Action} (h : a.source g < b.source g) : b.round = 1 := by
  cases b with
  | shift => exact absurd h not_lt_bot
  | reduce => rfl
  | accept => rfl

theorem completion_round (g : Grammar) (i : Nat) (head x : Symbol) :
    (completion g i head x).round = 1 := by
  unfold completion
  split <;> rfl

theorem completion_source {i : Nat} {p : Production} (hp : g.production? i = some p) (x : Symbol) :
    (completion g i p.head x).source g = .some i := by
  unfold completion
  split
  · rename_i hend
    rw [Grammar.eq_augmenting hp hend.1]
    rfl
  · rfl

/-- Claims that are made state by state, in one round, are in order when those of each state are. -/
theorem pairwise_states (round : Nat) {f : Lr.State → List Claim}
    (hf : ∀ s ∈ (Lr.Automaton.ofGrammar g).states,
      (f s).Pairwise (fun c d => turn g c < turn g d) ∧
        ∀ c ∈ f s, c.state = s.id ∧ c.action.round = round) :
    ((Lr.Automaton.ofGrammar g).states.flatMap f).Pairwise fun c d => turn g c < turn g d := by
  refine List.pairwise_flatMap.mpr ⟨fun s hs => (hf s hs).1, ?_⟩
  refine (Lr.ids_ascending g).imp_of_mem ?_
  intro s t hs ht hlt c hc d hd
  obtain ⟨hcstate, hcround⟩ := (hf s hs).2 c hc
  obtain ⟨hdstate, hdround⟩ := (hf t ht).2 d hd
  refine turn_lt.mpr (Or.inr ⟨hcround.trans hdround.symm, Or.inl ?_⟩)
  rwa [hcstate, hdstate]

theorem shiftClaims_ascending (g : Grammar) :
    (shiftClaims (Lr.Automaton.ofGrammar g)).Pairwise fun c d => turn g c < turn g d := by
  refine pairwise_states 0 ?_
  intro s hs
  obtain ⟨q, items, -, rfl⟩ := Lr.mem_states_iff.mp hs
  refine ⟨?_, ?_⟩
  · refine List.pairwise_map.mpr (List.pairwise_map.mpr ?_)
    refine (SortedSet.ofList _).ascending.imp ?_
    intro x y hxy
    exact turn_lt.mpr (Or.inr ⟨rfl, Or.inr ⟨rfl, Or.inr ⟨rfl, compare_lt_iff_lt.mp hxy⟩⟩⟩)
  · intro c hc
    obtain ⟨cell, -, rfl⟩ := List.mem_map.mp hc
    exact ⟨rfl, rfl⟩

/-- The completed items of a state are in the order of their productions. -/
theorem reducible_ascending {q : Nat} {items : ItemSet}
    (hq : (Lr.collection g)[q]? = some items) :
    (items.reducible g).Pairwise fun i j => i.production < j.production := by
  refine (items.ascending.filter _).imp_of_mem ?_
  intro i j hi hj hij
  obtain ⟨p, hp, hdot, -⟩ := (mem_reducible hq).mp hi
  obtain ⟨p', hp', hdot', -⟩ := (mem_reducible hq).mp hj
  have hij : (compare i.production j.production).then (compare i.dot j.dot) = .lt := hij
  rw [Ordering.then_eq_lt, Nat.compare_eq_lt, Nat.compare_eq_lt, Nat.compare_eq_eq] at hij
  rcases hij with hlt | ⟨hsame, hlt⟩
  · exact hlt
  · -- both dots are at the end of the same body
    rw [hsame] at hp
    obtain rfl : p = p' := Option.some.inj (hp.symm.trans hp')
    omega

theorem completionClaims_ascending (g : Grammar) (q : Nat) (i : Item) :
    (completionClaims g q i).Pairwise fun c d => turn g c < turn g d := by
  rw [completionClaims]
  split
  · exact .nil
  · rename_i p hp
    refine List.pairwise_map.mpr ((g.follow p.head).ascending.imp ?_)
    intro x y hxy
    refine turn_lt.mpr (Or.inr ⟨?_, Or.inr ⟨rfl, Or.inr ⟨?_, compare_lt_iff_lt.mp hxy⟩⟩⟩)
    · rw [completion_round, completion_round]
    · rw [completion_source hp, completion_source hp]

theorem reduceClaims_ascending (g : Grammar) :
    (reduceClaims g (Lr.Automaton.ofGrammar g)).Pairwise fun c d => turn g c < turn g d := by
  refine pairwise_states 1 ?_
  intro s hs
  obtain ⟨q, items, hq, rfl⟩ := Lr.mem_states_iff.mp hs
  have hclaim {c : Claim} {i : Item} (hc : c ∈ completionClaims g q i) :
      c.state = q ∧ c.action.round = 1 ∧ c.action.source g = .some i.production := by
    obtain ⟨hstate, p, hp, -, hact⟩ := mem_completionClaims.mp hc
    rw [hact]
    exact ⟨hstate, completion_round g _ _ _, completion_source hp _⟩
  refine ⟨List.pairwise_flatMap.mpr ⟨fun i _ => completionClaims_ascending g q i, ?_⟩, ?_⟩
  · refine (reducible_ascending hq).imp ?_
    intro i j hij c hc d hd
    obtain ⟨hcstate, hcround, hcsource⟩ := hclaim hc
    obtain ⟨hdstate, hdround, hdsource⟩ := hclaim hd
    refine turn_lt.mpr (Or.inr ⟨hcround.trans hdround.symm, Or.inr
      ⟨hcstate.trans hdstate.symm, Or.inl ?_⟩⟩)
    rw [hcsource, hdsource]
    exact WithBot.coe_lt_coe.mpr hij
  · intro c hc
    obtain ⟨i, -, hc⟩ := List.mem_flatMap.mp hc
    exact ⟨(hclaim hc).1, (hclaim hc).2.1⟩

/-- Claims are written in turn. -/
theorem claims_ascending (g : Grammar) :
    (claims g).Pairwise fun c d => turn g c < turn g d := by
  refine List.pairwise_append.mpr ⟨shiftClaims_ascending g, reduceClaims_ascending g, ?_⟩
  intro c hc d hd
  obtain ⟨r, hcact, -⟩ := mem_shiftClaims.mp hc
  obtain ⟨i, p, -, -, -, hdact⟩ := mem_reduceClaims.mp hd
  refine turn_lt.mpr (Or.inl ?_)
  rw [hcact, hdact, completion_round]
  exact Nat.zero_lt_one

/-- What is written before a claim has an earlier turn, and nothing else has. -/
theorem mem_before_iff {before after : List Claim} {c d : Claim}
    (h : claims g = before ++ d :: after) (hc : c ∈ claims g) :
    c ∈ before ↔ turn g c < turn g d := by
  have hsorted := claims_ascending g
  rw [h] at hsorted hc
  obtain ⟨-, hafter, hbefore⟩ := List.pairwise_append.mp hsorted
  obtain ⟨hafter, -⟩ := List.pairwise_cons.mp hafter
  refine ⟨fun hc => hbefore c hc d List.mem_cons_self, ?_⟩
  intro hlt
  rcases List.mem_append.mp hc with hc | hc
  · exact hc
  · rcases List.mem_cons.mp hc with rfl | hc
    · exact absurd hlt (lt_irrefl _)
    · exact absurd (hafter c hc) (lt_asymm hlt)

/-! ## Claims on one cell -/

/-- At the end of input, the augmenting production does not ask for a reduction. -/
theorem ne_augmenting {i : Nat} {p : Production} (hp : g.production? i = some p)
    (hend : ¬ (p.head = g.start ∧ endMarker = endMarker)) : i ≠ g.augmenting := by
  rintro rfl
  obtain ⟨p', haugmenting, hhead, -⟩ := g.production?_augmenting
  obtain rfl := Option.some.inj (hp.symm.trans haugmenting)
  exact hend ⟨hhead, rfl⟩

/-- A production has one claim on a cell, and so has the transition. -/
theorem Claimed.eq_of_source {q : Nat} {x : Symbol} {a b : Action} (ha : Claimed g q x a)
    (hb : Claimed g q x b) (h : a.source g = b.source g) : a = b := by
  have hinj {i j : Nat} (h : WithBot.some i = WithBot.some j) : i = j := WithBot.coe_inj.mp h
  cases ha with
  | shift htrans =>
      cases hb with
      | shift htrans' => rw [Option.some.inj (htrans.symm.trans htrans')]
      | reduce => exact nomatch h
      | accept => exact nomatch h
  | reduce hp _ _ hend =>
      cases hb with
      | shift => exact nomatch h
      | reduce => exact congrArg _ (hinj h)
      | accept => exact absurd (hinj h) (ne_augmenting hp hend)
  | accept =>
      cases hb with
      | shift => exact nomatch h
      | reduce hp _ _ hend => exact absurd (hinj h).symm (ne_augmenting hp hend)
      | accept => rfl

/-- A cell that is written in turn is left with the claim that comes last. -/
theorem foldlM_write_last {policy : Policy} {u : Table} {q : Nat} {x : Symbol} {a : Action}
    (ha : u.action q x = some a) : ∀ {cs : List Claim} {t : Table},
    (∀ c ∈ cs, c.state < t.size) → cs.Pairwise (fun c d => turn g c < turn g d) →
      cs.foldlM (write policy) t = .ok u → ∀ b, ⟨q, x, b⟩ ∈ cs → b.source g ≤ a.source g := by
  intro cs
  induction cs with
  | nil =>
      intro t _ _ _ b hb
      exact absurd hb List.not_mem_nil
  | cons c cs ih =>
      intro t hcs hsorted h b hb
      obtain ⟨hc, hsorted⟩ := List.pairwise_cons.mp hsorted
      obtain ⟨v, -, -, haction, hrest, hu⟩ := foldlM_write_cons hcs h
      rcases List.mem_cons.mp hb with rfl | hb
      · -- the action in the end is the one just written, or one of a later turn
        rcases foldlM_write_action ha hrest hu with hcell | hmem
        · rw [haction, if_pos ⟨rfl, rfl⟩] at hcell
          exact le_of_eq (congrArg _ (Option.some.inj hcell))
        · exact (turn_lt_iff.mp (hc _ hmem)).le
      · exact ih hrest hsorted hu b hb

/-! ## The first conflict -/

theorem write_error {policy : Policy} {t : Table} {c : Claim} {conflict : Conflict}
    (h : write policy t c = .error conflict) :
    conflict.state = c.state ∧ conflict.symbol = c.symbol ∧ conflict.incoming = c.action ∧
      t.action c.state c.symbol = some conflict.existing := by
  rw [write] at h
  split at h
  · cases h
  · rename_i existing hexisting
    split at h
    · cases h
    · cases policy with
      | reject =>
          obtain rfl := Except.error.inj h
          exact ⟨rfl, rfl, rfl, hexisting⟩
      | lastWins => cases h

/-- Where writing fails, it fails at some claim, with those before it written. -/
theorem foldlM_write_error {policy : Policy} {conflict : Conflict} : ∀ {cs : List Claim}
    {t : Table}, cs.foldlM (write policy) t = .error conflict →
      ∃ before c after u, cs = before ++ c :: after ∧
        before.foldlM (write policy) t = .ok u ∧ write policy u c = .error conflict := by
  intro cs
  induction cs with
  | nil =>
      intro t h
      exact nomatch h
  | cons c cs ih =>
      intro t h
      rw [List.foldlM_cons] at h
      cases hv : write policy t c with
      | error e =>
          rw [hv] at h
          obtain rfl := Except.error.inj h
          exact ⟨[], c, cs, t, rfl, rfl, hv⟩
      | ok v =>
          rw [hv] at h
          obtain ⟨before, d, after, u, rfl, hu, hd⟩ := ih h
          refine ⟨c :: before, d, after, u, rfl, ?_, hd⟩
          rw [List.foldlM_cons, hv]
          exact hu

end Table

namespace Conflict

/-- Two claims on one cell make a conflict; the one of the larger production comes in. -/
def Arises (g : Grammar) (c : Conflict) : Prop :=
  Table.Claimed g c.state c.symbol c.existing ∧ Table.Claimed g c.state c.symbol c.incoming ∧
    c.existing.source g < c.incoming.source g

/-- The place of a conflict: its state, the production of its incoming action, and its symbol. -/
def place (g : Grammar) (c : Conflict) : Nat ×ₗ WithBot Nat ×ₗ Symbol :=
  toLex (c.state, toLex (c.incoming.source g, c.symbol))

/-- A conflict that comes before all others. -/
def First (g : Grammar) (c : Conflict) : Prop :=
  c.Arises g ∧ ∀ d : Conflict, d.Arises g → c.place g ≤ d.place g

variable {g : Grammar}

/-- The incoming actions of conflicts are written in the order of their places. -/
theorem Arises.turn_lt {c d : Conflict} (hc : c.Arises g) (hd : d.Arises g)
    (h : c.place g < d.place g) :
    Table.turn g ⟨c.state, c.symbol, c.incoming⟩ <
      Table.turn g ⟨d.state, d.symbol, d.incoming⟩ := by
  refine Table.turn_lt.mpr (Or.inr ⟨?_, ?_⟩)
  · show c.incoming.round = d.incoming.round
    rw [Table.round_of_source_lt hc.2.2, Table.round_of_source_lt hd.2.2]
  · simpa only [place, Prod.Lex.toLex_lt_toLex] using h

/-- There is at most one first conflict. -/
theorem First.unique {c d : Conflict} (hc : c.First g) (hd : d.First g) : c = d := by
  have hplace := le_antisymm (hc.2 d hd.1) (hd.2 c hc.1)
  obtain ⟨q, x, a, b⟩ := c
  obtain ⟨q', x', a', b'⟩ := d
  simp only [place, EmbeddingLike.apply_eq_iff_eq, Prod.mk.injEq] at hplace
  obtain ⟨rfl, hsource, rfl⟩ := hplace
  obtain ⟨⟨hcold, hcnew, hclt⟩, hleast⟩ := hc
  obtain ⟨⟨hdold, hdnew, hdlt⟩, -⟩ := hd
  obtain rfl : b = b' := hcnew.eq_of_source hdnew hsource
  -- of two earlier claims the later one would come into conflict with the other before
  have hnot {e f : Action} (he : Table.Claimed g q x e) (hf : Table.Claimed g q x f)
      (hef : e.source g < f.source g) (hfb : f.source g < b.source g) : False := by
    refine absurd (hleast ⟨q, x, e, f⟩ ⟨he, hf, hef⟩) (not_le.mpr ?_)
    simp only [place, Prod.Lex.toLex_lt_toLex]
    exact Or.inr ⟨trivial, Or.inl hfb⟩
  rcases lt_trichotomy (a.source g) (a'.source g) with hlt | hsame | hlt
  · exact (hnot hcold hdold hlt hdlt).elim
  · obtain rfl : a = a' := hcold.eq_of_source hdold hsame
    rfl
  · exact (hnot hdold hcold hlt hclt).elim

end Conflict

namespace Table

variable {g : Grammar}

theorem first_of_build_error {c : Conflict} (h : build .reject g = .error c) : c.First g := by
  obtain ⟨before, d, after, u, hsplit, hu, hd⟩ := foldlM_write_error h
  have hsplit : claims g = before ++ d :: after := hsplit
  obtain ⟨hstate, hsymbol, hincoming, hexisting⟩ := write_error hd
  obtain rfl : d = ⟨c.state, c.symbol, c.incoming⟩ := by rw [hstate, hsymbol, hincoming]
  have hmem {e : Claim} (he : e ∈ before) : e ∈ claims g := by
    rw [hsplit]
    exact List.mem_append_left _ he
  have hin : ∀ e ∈ before, e.state < (blank g (Lr.Automaton.ofGrammar g)).size :=
    fun _ he => claims_state_lt (hmem he)
  have hold : ⟨c.state, c.symbol, c.existing⟩ ∈ before := by
    rcases foldlM_write_action hexisting hin hu with hblank | hold
    · exact nomatch (action_blank _ _ _).symm.trans hblank
    · exact hold
  have hnew : ⟨c.state, c.symbol, c.incoming⟩ ∈ claims g := by
    rw [hsplit]
    exact List.mem_append_right _ List.mem_cons_self
  have harises : c.Arises g := by
    refine ⟨mem_claims_iff.mp (hmem hold), mem_claims_iff.mp hnew, ?_⟩
    exact turn_lt_iff.mp ((mem_before_iff hsplit (hmem hold)).mp hold)
  refine ⟨harises, ?_⟩
  intro e he
  by_contra hlt
  -- both claims of an earlier conflict have been written, so they are the same
  have hturn := he.turn_lt harises (not_le.mp hlt)
  obtain ⟨heold, henew, hesource⟩ := he
  have hbefore {a : Action} (ha : Claimed g e.state e.symbol a)
      (hlt : turn g ⟨e.state, e.symbol, a⟩ < turn g ⟨c.state, c.symbol, c.incoming⟩) :
      u.action e.state e.symbol = some a :=
    foldlM_write_mem hin hu ((mem_before_iff hsplit (mem_claims_iff.mpr ha)).mpr hlt)
  have hsame := (hbefore heold ((turn_lt_iff.mpr hesource).trans hturn)).symm.trans
    (hbefore henew hturn)
  rw [Option.some.inj hsame] at hesource
  exact lt_irrefl _ hesource

/-- **The cells of a table.**  Refusing conflicts makes a table exactly when no cell is claimed
twice, and then the cells hold what is claimed.  Otherwise the conflict that is reported is the
first in the order of states, productions of the incoming action and symbols.  Where the later
action wins, there is always a table; a cell holds the claim of the largest production, or the shift
if no completed item claims it, or nothing. -/
theorem build_cells (g : Grammar) :
    ((∃ t, build .reject g = .ok t) ↔ ∀ q x, {a | Claimed g q x a}.Subsingleton) ∧
    (∀ t, build .reject g = .ok t → ∀ q x a, t.action q x = some a ↔ Claimed g q x a) ∧
    (∀ c, build .reject g = .error c ↔ c.First g) ∧
    ∃ t, build .lastWins g = .ok t ∧ ∀ q x a,
      t.action q x = some a ↔
        Claimed g q x a ∧ ∀ b, Claimed g q x b → b.source g ≤ a.source g := by
  have hok : ∀ t, build .reject g = .ok t → ∀ q x a, t.action q x = some a ↔ Claimed g q x a :=
    fun t ht q x a => ⟨build_claimed ht, build_action ht⟩
  refine ⟨⟨?_, ?_⟩, hok, ?_, ?_⟩
  · rintro ⟨t, ht⟩ q x a ha b hb
    exact Option.some.inj (((hok t ht q x a).mpr ha).symm.trans ((hok t ht q x b).mpr hb))
  · intro hone
    cases hbuild : build .reject g with
    | ok t => exact ⟨t, rfl⟩
    | error c =>
        obtain ⟨⟨hold, hnew, hlt⟩, -⟩ := first_of_build_error hbuild
        rw [hone _ _ hold hnew] at hlt
        exact absurd hlt (lt_irrefl _)
  · intro c
    refine ⟨first_of_build_error, ?_⟩
    intro hc
    cases hbuild : build .reject g with
    | ok t =>
        obtain ⟨⟨hold, hnew, hlt⟩, -⟩ := hc
        have hsame := ((hok t hbuild _ _ _).mpr hold).symm.trans ((hok t hbuild _ _ _).mpr hnew)
        rw [Option.some.inj hsame] at hlt
        exact absurd hlt (lt_irrefl _)
    | error d => rw [(first_of_build_error hbuild).unique hc]
  · obtain ⟨t, ht, -⟩ := exists_foldlM_lastWins (claims g) (blank g (Lr.Automaton.ofGrammar g))
    have hlast {q : Nat} {x : Symbol} {a : Action} (ha : t.action q x = some a) :
        ∀ b, Claimed g q x b → b.source g ≤ a.source g := fun b hb =>
      foldlM_write_last ha (fun _ hc => claims_state_lt hc) (claims_ascending g) ht b
        (mem_claims_iff.mpr hb)
    refine ⟨t, ht, fun q x a => ⟨fun ha => ⟨build_claimed ht ha, hlast ha⟩, ?_⟩⟩
    rintro ⟨ha, hmax⟩
    obtain ⟨b, hb⟩ := build_taken ht ha
    have hclaimed := build_claimed ht hb
    rw [hb, ha.eq_of_source hclaimed (le_antisymm (hlast hb a ha) (hmax b hclaimed))]

/-- Differences that are read from the left. -/
def leftDifferences : Grammar :=
  ⟨"E'", 0, [⟨"E'", ["E"], none⟩, ⟨"E", ["E", "-", "n"], none⟩, ⟨"E", ["n"], none⟩],
    ⟨⟨⟨"E'", ["E"], none⟩, by decide +kernel, by decide +kernel⟩, by decide +kernel⟩⟩

/-- Read from the left, differences have a table; with no side to read them from, they have a first
conflict. -/
theorem build_cells_differences :
    (∃ t, build .reject leftDifferences = .ok t ∧
      ∀ q x a, t.action q x = some a ↔ Claimed leftDifferences q x a) ∧
    build .reject sidelessDifferences = .error ⟨4, "-", .shift 3, .reduce 1⟩ ∧
    Conflict.First sidelessDifferences ⟨4, "-", .shift 3, .reduce 1⟩ := by
  obtain ⟨t, ht⟩ : ∃ t, build .reject leftDifferences = .ok t := ⟨_, rfl⟩
  have hconflict : build .reject sidelessDifferences = .error ⟨4, "-", .shift 3, .reduce 1⟩ := rfl
  exact ⟨⟨t, ht, (build_cells leftDifferences).2.1 t ht⟩, hconflict,
    ((build_cells sidelessDifferences).2.2.1 _).mp hconflict⟩

end Table

end FrontEnd
