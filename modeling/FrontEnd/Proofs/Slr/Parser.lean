/-
# `Slr.Parser` — the moves of a running parser, and its runs

`Makes t c m d` lists what a running parser can do other than get stuck: each rule has the
contents of the cell and the shape of the stack that it needs.  `Accepts t c trace` is a
run of such moves that ends in acceptance, and `Runs t c past d` one after which the parser is
still running.  They are the functions `step` and `run` in the form in which proofs take them
apart (`step_eq_iff`, `run_eq_ok_iff`, `exists_runs_of_run`).

Of its input a move sees the lookahead only, unless the cell there says to accept
(`step_over`); so parsers over two inputs do the same up to the first place where the inputs
differ (`Runs.over`).

`afterMoves t n c` is the configuration behind `n` moves, whether the parser is done or not.  It is
the end of a run, or where a shorter one has come to its last move (`afterMoves_cases`).  What every
step keeps holds of all these configurations (`afterMoves_of_step`, `moves_of_step`).
-/
import FrontEnd.Slr.Parser

namespace FrontEnd

/-- The same configuration over another input. -/
def Configuration.over (c : Configuration) (input : List Symbol) : Configuration :=
  { c with input := input }

namespace Table

variable {t : Table} {c d : Configuration} {m : Move}

/-- `Makes t c m d`: the move `m` leads a running parser from `c` to `d`, and is no error. -/
inductive Makes (t : Table) (c : Configuration) : Move → Configuration → Prop
  | shift {q r : Nat} {rest : List Nat} : c.stack = q :: rest →
      t.grammar.isTerminal c.lookahead = true → t.action q c.lookahead = some (.shift r) →
      Makes t c .shift { c with stack := r :: c.stack, position := c.position + 1 }
  | reduce {q q' i r : Nat} {rest rest' : List Nat} {p : Production} : c.stack = q :: rest →
      t.grammar.isTerminal c.lookahead = true → t.action q c.lookahead = some (.reduce i) →
      t.grammar.production? i = some p → c.stack.drop p.body.length = q' :: rest' →
      t.goto q' p.head = some r → Makes t c (.reduce i) { c with stack := r :: q' :: rest' }
  | accept {q : Nat} {rest : List Nat} : c.stack = q :: rest →
      t.grammar.isTerminal c.lookahead = true → t.action q c.lookahead = some .accept →
      c.input.length ≤ c.position + 1 → Makes t c .accept { c with status := .accepted }

theorem reduce_eq_iff {i : Nat} (hm : m ≠ .error) :
    t.reduce c i = (m, d) ↔
      ∃ p q rest r, t.grammar.production? i = some p ∧ c.stack.drop p.body.length = q :: rest ∧
        t.goto q p.head = some r ∧ m = .reduce i ∧ d = { c with stack := r :: q :: rest } := by
  rw [reduce]
  refine ⟨?_, ?_⟩
  · intro h
    split at h
    · cases h
      exact absurd rfl hm
    · rename_i p hp
      split at h
      · cases h
        exact absurd rfl hm
      · dsimp only at h
        split at h
        · rename_i r hgoto
          cases h
          obtain ⟨q, hq, hr⟩ := Option.bind_eq_some_iff.mp hgoto
          obtain ⟨rest, hrest⟩ := List.head?_eq_some_iff.mp hq
          exact ⟨p, q, rest, r, hp, hrest, hr, rfl, by rw [hrest]⟩
        · cases h
          exact absurd rfl hm
  · rintro ⟨p, q, rest, r, hp, hdrop, hr, rfl, rfl⟩
    have hlt : ¬ c.stack.length ≤ p.body.length := by
      intro hle
      rw [List.drop_eq_nil_of_le hle] at hdrop
      exact nomatch hdrop
    simp [hp, hlt, hdrop, hr]

/-- What a running parser does, other than get stuck. -/
theorem step_eq_iff (hc : c.status = .running) (hm : m ≠ .error) :
    t.step c = (m, d) ↔ Makes t c m d := by
  obtain ⟨input, position, stack, status⟩ := c
  obtain rfl : status = .running := hc
  unfold step
  refine ⟨?_, ?_⟩
  · intro h
    dsimp only at h
    split at h
    · cases h
      exact absurd rfl hm
    · rename_i q rest
      split at h
      · rename_i hterm
        split at h
        · rename_i r hact
          cases h
          exact .shift rfl hterm hact
        · rename_i i hact
          obtain ⟨p, q', rest', r, hp, hdrop, hr, rfl, rfl⟩ := (reduce_eq_iff hm).mp h
          exact .reduce rfl hterm hact hp hdrop hr
        · rename_i hact
          split at h
          · cases h
            exact absurd rfl hm
          · rename_i hlast
            cases h
            exact .accept rfl hterm hact (Nat.le_of_not_lt hlast)
        · cases h
          exact absurd rfl hm
      · cases h
        exact absurd rfl hm
  · intro h
    cases h with
    | shift hstack hterm hact =>
        obtain rfl := hstack
        simp [hterm, hact]
    | reduce hstack hterm hact hp hdrop hr =>
        obtain rfl := hstack
        simp only [hterm, hact, if_true]
        exact (reduce_eq_iff hm).mpr ⟨_, _, _, _, hp, hdrop, hr, rfl, rfl⟩
    | accept hstack hterm hact hlast =>
        obtain rfl := hstack
        have hlast : ¬ position + 1 < input.length := Nat.not_lt_of_le hlast
        simp [hterm, hact, hlast]

/-- A parser that moves on and does not accept is still running, over the same input. -/
theorem Makes.running (h : Makes t c m d) (hm : m ≠ .accept) :
    d.status = c.status ∧ d.input = c.input := by
  cases h with
  | shift => exact ⟨rfl, rfl⟩
  | reduce => exact ⟨rfl, rfl⟩
  | accept => exact absurd rfl hm

theorem Makes.ne_error (h : Makes t c m d) : m ≠ .error := by
  cases h <;> exact nofun

theorem Makes.step_eq (h : Makes t c m d) (hc : c.status = .running) : t.step c = (m, d) :=
  (step_eq_iff hc h.ne_error).mpr h

/-- `Accepts t c trace`: from `c` on, a running parser makes the moves of `trace`, the last of
which accepts. -/
inductive Accepts (t : Table) : Configuration → Trace → Prop
  | accept {c d : Configuration} : Makes t c .accept d → Accepts t c [.accept]
  | move {c d : Configuration} {m : Move} {trace : Trace} : Makes t c m d → m ≠ .accept →
      Accepts t d trace → Accepts t c (m :: trace)

theorem Accepts.ne_nil {trace : Trace} (h : Accepts t c trace) : trace ≠ [] := by
  cases h <;> exact nofun

theorem run_succ {limit : Nat} (hstep : t.step c = (m, d)) (hacc : m ≠ .accept)
    (herr : m ≠ .error) :
    t.run (limit + 1) c = match t.run limit d with
      | none => none
      | some (.ok rest) => some (.ok (m :: rest))
      | some (.error e) => some (.error { e with trace := m :: e.trace }) := by
  rw [run, hstep]
  cases m with
  | accept => exact absurd rfl hacc
  | error => exact absurd rfl herr
  | shift => rfl
  | reduce i => rfl

theorem run_succ_eq_ok_iff {limit : Nat} {trace : Trace} (hstep : t.step c = (m, d))
    (hacc : m ≠ .accept) (herr : m ≠ .error) :
    t.run (limit + 1) c = some (.ok trace) ↔
      ∃ rest, trace = m :: rest ∧ t.run limit d = some (.ok rest) := by
  rw [run_succ hstep hacc herr]
  cases t.run limit d with
  | none => simp
  | some r =>
      cases r with
      | error e => simp
      | ok rest => simp [eq_comm]

/-- A run succeeds with a trace exactly when the parser accepts with it and the limit allows
for its moves. -/
theorem run_eq_ok_iff {limit : Nat} {trace : Trace} (hc : c.status = .running) :
    t.run limit c = some (.ok trace) ↔ Accepts t c trace ∧ trace.length ≤ limit := by
  induction limit generalizing c trace with
  | zero =>
      refine ⟨?_, ?_⟩
      · intro h
        exact nomatch h
      · rintro ⟨h, hlen⟩
        exact absurd (List.eq_nil_of_length_eq_zero (Nat.le_zero.mp hlen)) h.ne_nil
  | succ limit ih =>
      refine ⟨?_, ?_⟩
      · intro h
        cases hstep : t.step c with
        | mk m d =>
            by_cases herr : m = .error
            · subst herr
              rw [run, hstep] at h
              exact nomatch h
            have hmakes := (step_eq_iff hc herr).mp hstep
            by_cases hacc : m = .accept
            · subst hacc
              rw [run, hstep] at h
              cases h
              exact ⟨.accept hmakes, Nat.succ_le_succ (Nat.zero_le _)⟩
            · obtain ⟨rest, rfl, hrest⟩ := (run_succ_eq_ok_iff hstep hacc herr).mp h
              obtain ⟨hstatus, -⟩ := hmakes.running hacc
              obtain ⟨hrest, hlen⟩ := (ih (hstatus.trans hc)).mp hrest
              exact ⟨.move hmakes hacc hrest, Nat.succ_le_succ hlen⟩
      · rintro ⟨h, hlen⟩
        cases h with
        | accept hmakes =>
            rw [run, hmakes.step_eq hc]
        | move hmakes hacc hrest =>
            obtain ⟨hstatus, -⟩ := hmakes.running hacc
            refine (run_succ_eq_ok_iff (hmakes.step_eq hc) hacc hmakes.ne_error).mpr ⟨_, rfl, ?_⟩
            exact (ih (hstatus.trans hc)).mpr ⟨hrest, Nat.le_of_succ_le_succ hlen⟩

/-- A running parser accepts in one way at most. -/
theorem Accepts.unique {trace trace' : Trace} (hc : c.status = .running) (h : Accepts t c trace)
    (h' : Accepts t c trace') : trace = trace' := by
  have hrun := (run_eq_ok_iff hc).mpr ⟨h, Nat.le_add_right trace.length trace'.length⟩
  rw [(run_eq_ok_iff hc).mpr ⟨h', Nat.le_add_left _ _⟩] at hrun
  exact (Except.ok.inj (Option.some.inj hrun)).symm

/-- A parse succeeds with a trace exactly when the parser accepts with it from the start and the
limit allows for its moves. -/
theorem parse_eq_ok_iff {limit : Nat} {input : List Symbol} {trace : Trace} :
    t.parse limit input = some (.ok trace) ↔
      Accepts t (.start input) trace ∧ trace.length ≤ limit :=
  run_eq_ok_iff rfl

/-! ## Runs that fail -/

/-- `Runs t c past d`: the moves `past` lead a running parser from `c` to `d`, and it has not
accepted. -/
inductive Runs (t : Table) : Configuration → Trace → Configuration → Prop
  | done {c : Configuration} : Runs t c [] c
  | move {c d e : Configuration} {m : Move} {past : Trace} : Makes t c m d → m ≠ .accept →
      Runs t d past e → Runs t c (m :: past) e

theorem Runs.running {past : Trace} (h : Runs t c past d) :
    d.status = c.status ∧ d.input = c.input := by
  induction h with
  | done => exact ⟨rfl, rfl⟩
  | move hmakes hacc _ ih =>
      obtain ⟨hstatus, hinput⟩ := hmakes.running hacc
      exact ⟨ih.1.trans hstatus, ih.2.trans hinput⟩

theorem Makes.position_le (h : Makes t c m d) : c.position ≤ d.position := by
  cases h with
  | shift => exact Nat.le_succ _
  | reduce => exact Nat.le_refl _
  | accept => exact Nat.le_refl _

theorem Runs.position_le {past : Trace} (h : Runs t c past d) : c.position ≤ d.position := by
  induction h with
  | done => exact Nat.le_refl _
  | move hmakes _ _ ih => exact Nat.le_trans hmakes.position_le ih

/-- A run that fails has come to a point with no way on, and reports what is found there. -/
theorem exists_runs_of_run {limit : Nat} {e : ParseError} :
    ∀ {c : Configuration}, c.status = .running → t.run limit c = some (.error e) →
      ∃ past d last, Runs t c past d ∧ t.step d = (.error, last) ∧
        e = { t.report last with trace := past ++ [.error] } := by
  induction limit generalizing e with
  | zero =>
      intro c _ h
      cases h
  | succ limit ih =>
      intro c hc h
      cases hstep : t.step c with
      | mk m d =>
          by_cases herr : m = .error
          · subst herr
            rw [run, hstep] at h
            obtain rfl := Except.error.inj (Option.some.inj h)
            exact ⟨[], c, d, .done, hstep, rfl⟩
          have hmakes := (step_eq_iff hc herr).mp hstep
          by_cases hacc : m = .accept
          · subst hacc
            rw [run, hstep] at h
            cases h
          rw [run_succ hstep hacc herr] at h
          split at h
          · cases h
          · cases h
          · rename_i e' hrun
            obtain rfl := Except.error.inj (Option.some.inj h)
            obtain ⟨hstatus, -⟩ := hmakes.running hacc
            obtain ⟨past, d', last, hruns, hlast, rfl⟩ := ih (hstatus.trans hc) hrun
            exact ⟨m :: past, d', last, .move hmakes hacc hruns, hlast, rfl⟩

/-- A parser that accepts does so behind every run that it makes. -/
theorem Accepts.behind {past : Trace} (h : Runs t c past d) : ∀ {trace : Trace},
    c.status = .running → Accepts t c trace → ∃ rest, Accepts t d rest := by
  induction h with
  | done =>
      intro trace _ haccepts
      exact ⟨trace, haccepts⟩
  | @move c d e m past hmakes hacc _ ih =>
      intro trace hc haccepts
      have hstep := hmakes.step_eq hc
      cases haccepts with
      | accept hmakes' =>
          rw [hmakes'.step_eq hc] at hstep
          exact absurd (Prod.mk.inj hstep).1.symm hacc
      | move hmakes' _ hrest =>
          rw [hmakes'.step_eq hc] at hstep
          obtain ⟨-, rfl⟩ := Prod.mk.inj hstep
          exact ih ((hmakes.running hacc).1.trans hc) hrest

theorem Accepts.step_ne_error {trace : Trace} (h : Accepts t c trace)
    (hc : c.status = .running) : (t.step c).1 ≠ .error := by
  cases h with
  | accept hmakes =>
      rw [hmakes.step_eq hc]
      exact hmakes.ne_error
  | move hmakes =>
      rw [hmakes.step_eq hc]
      exact hmakes.ne_error

theorem Accepts.after_runs {past rest : Trace} (h : Runs t c past d) (hrest : Accepts t d rest) :
    Accepts t c (past ++ rest) := by
  induction h with
  | done => exact hrest
  | move hmakes hacc _ ih => exact .move hmakes hacc (ih hrest)

/-- A parser that accepts makes the moves of its trace one after the other. -/
theorem Accepts.exists_runs {rest : Trace} (hrest : rest ≠ []) : ∀ {past : Trace}
    {c : Configuration}, Accepts t c (past ++ rest) → ∃ d, Runs t c past d := by
  intro past
  induction past with
  | nil =>
      intro c _
      exact ⟨c, .done⟩
  | cons m past ih =>
      intro c h
      rw [List.cons_append] at h
      generalize hlater : past ++ rest = later at h
      cases h with
      | accept => exact absurd (List.append_eq_nil_iff.mp hlater).2 hrest
      | move hmakes hacc hlater' =>
          subst hlater
          obtain ⟨d, hruns⟩ := ih hlater'
          exact ⟨d, .move hmakes hacc hruns⟩

theorem Makes.position_eq (h : Makes t c m d) :
    d.position = c.position + [m].count .shift := by
  cases h with
  | shift => rfl
  | reduce => rfl
  | accept => rfl

/-- Every shift reads one symbol. -/
theorem Runs.position_eq {past : Trace} (h : Runs t c past d) :
    d.position = c.position + past.count .shift := by
  induction h with
  | done => rfl
  | @move c d e m past hmakes _ _ ih =>
      rw [ih, hmakes.position_eq, Nat.add_assoc, ← List.count_append]
      rfl

/-! ## Moves that find no way on -/

/-- The cell for the state on top of the stack and the lookahead says to accept. -/
def AcceptsHere (t : Table) (c : Configuration) : Prop :=
  ∃ q rest, c.stack = q :: rest ∧ t.grammar.isTerminal c.lookahead = true ∧
    t.action q c.lookahead = some .accept

theorem Makes.acceptsHere (h : Makes t c .accept d) :
    AcceptsHere t c ∧ d = { c with status := .accepted } := by
  cases h with
  | accept hstack hterm hact => exact ⟨⟨_, _, hstack, hterm, hact⟩, rfl⟩

theorem Makes.not_acceptsHere (h : Makes t c m d) (hm : m ≠ .accept) : ¬ AcceptsHere t c := by
  rintro ⟨q, rest, hstack, -, hact⟩
  cases h with
  | shift hstack' _ hact' =>
      obtain ⟨rfl, -⟩ := List.cons.inj (hstack.symm.trans hstack')
      exact nomatch hact.symm.trans hact'
  | reduce hstack' _ hact' =>
      obtain ⟨rfl, -⟩ := List.cons.inj (hstack.symm.trans hstack')
      exact nomatch hact.symm.trans hact'
  | accept => exact hm rfl

/-- The cell for the state on top of the stack and the lookahead says to reduce. -/
def ReducesHere (t : Table) (c : Configuration) (i : Nat) : Prop :=
  ∃ q rest, c.stack = q :: rest ∧ t.grammar.isTerminal c.lookahead = true ∧
    t.action q c.lookahead = some (.reduce i)

theorem reduce_error {i : Nat} (h : t.reduce c i = (.error, d)) :
    ∃ stack, d = { c with stack := stack, status := .stuck } := by
  rw [reduce] at h
  split at h
  · cases h
    exact ⟨c.stack, rfl⟩
  · split at h
    · cases h
      exact ⟨c.stack, rfl⟩
    · dsimp only at h
      split at h
      · exact nomatch (Prod.mk.inj h).1
      · cases h
        exact ⟨_, rfl⟩

/-- Where there is no way on, the parser is stuck at its position, unless there is more input
behind an end marker. -/
theorem step_error_cases (hc : c.status = .running) (h : t.step c = (.error, d)) :
    (¬ AcceptsHere t c ∧ ∃ stack, d = { c with stack := stack, status := .stuck }) ∨
      (AcceptsHere t c ∧ c.position + 1 < c.input.length ∧
        d = { c with position := c.position + 1, status := .stuck }) := by
  obtain ⟨input, position, stack, status⟩ := c
  obtain rfl : status = .running := hc
  unfold step at h
  dsimp only at h
  split at h
  · cases h
    refine Or.inl ⟨?_, [], rfl⟩
    rintro ⟨q, rest, hstack, -⟩
    exact nomatch hstack
  · rename_i q rest
    have hcell {a : Option Action}
        (hact : t.action q (Configuration.lookahead ⟨input, position, q :: rest, .running⟩) = a)
        (ha : a ≠ some .accept) : ¬ AcceptsHere t ⟨input, position, q :: rest, .running⟩ := by
      rintro ⟨q', rest', hstack, -, hact'⟩
      obtain ⟨rfl, -⟩ := List.cons.inj hstack
      exact ha (hact.symm.trans hact')
    split at h
    · rename_i hterm
      split at h
      · exact nomatch (Prod.mk.inj h).1
      · rename_i i hact
        exact Or.inl ⟨hcell hact nofun, reduce_error h⟩
      · rename_i hact
        split at h
        · rename_i hmore
          cases h
          exact Or.inr ⟨⟨q, rest, rfl, hterm, hact⟩, hmore, rfl⟩
        · exact nomatch (Prod.mk.inj h).1
      · rename_i hact
        cases h
        exact Or.inl ⟨hcell hact nofun, _, rfl⟩
    · rename_i hterm
      cases h
      exact Or.inl ⟨fun ⟨_, _, _, hterm', _⟩ => hterm hterm', _, rfl⟩

/-- A parser that finds no way on changes its stack only in a reduction. -/
theorem stack_of_step_error (hc : c.status = .running) (h : t.step c = (.error, d))
    (hreduces : ∀ i, ¬ ReducesHere t c i) : d.stack = c.stack := by
  obtain ⟨input, position, stack, status⟩ := c
  obtain rfl : status = .running := hc
  unfold step at h
  dsimp only at h
  split at h
  · cases h
    rfl
  · rename_i q rest
    split at h
    · rename_i hterm
      split at h
      · exact nomatch (Prod.mk.inj h).1
      · rename_i i hact
        exact absurd ⟨q, rest, rfl, hterm, hact⟩ (hreduces i)
      · split at h
        · cases h
          rfl
        · exact nomatch (Prod.mk.inj h).1
      · cases h
        rfl
    · cases h
      rfl

/-- A reduction that can be made is made. -/
theorem not_reducesHere_of_step_error (hc : c.status = .running) (h : t.step c = (.error, d))
    {i q r : Nat} {rest : List Nat} {p : Production} (hp : t.grammar.production? i = some p)
    (hdrop : c.stack.drop p.body.length = q :: rest) (hgoto : t.goto q p.head = some r) :
    ¬ ReducesHere t c i := by
  rintro ⟨top, below, hstack, hterm, hact⟩
  rw [(Makes.reduce hstack hterm hact hp hdrop hgoto).step_eq hc] at h
  exact nomatch (Prod.mk.inj h).1

/-- Where there is no way on, and neither to reduce nor to accept, the cell of the lookahead
is empty. -/
theorem action_of_step_error (hc : c.status = .running) (h : t.step c = (.error, d))
    (haccepts : ¬ AcceptsHere t c) (hreduces : ∀ i, ¬ ReducesHere t c i) {q : Nat}
    {rest : List Nat} (hstack : c.stack = q :: rest)
    (hterm : t.grammar.isTerminal c.lookahead = true) : t.action q c.lookahead = none := by
  cases hact : t.action q c.lookahead with
  | none => rfl
  | some a =>
      cases a with
      | shift r =>
          rw [(Makes.shift hstack hterm hact).step_eq hc] at h
          exact nomatch (Prod.mk.inj h).1
      | reduce i => exact absurd ⟨q, rest, hstack, hterm, hact⟩ (hreduces i)
      | accept => exact absurd ⟨q, rest, hstack, hterm, hact⟩ haccepts

/-- A running parser gets stuck or makes a move. -/
theorem step_cases (t : Table) (hc : c.status = .running) :
    (∃ d, t.step c = (.error, d) ∧ d.status = .stuck) ∨
      ∃ m d, t.step c = (m, d) ∧ Makes t c m d := by
  cases hstep : t.step c with
  | mk m d =>
      by_cases hm : m = .error
      · subst hm
        refine Or.inl ⟨d, rfl, ?_⟩
        rcases step_error_cases hc hstep with ⟨-, stack, rfl⟩ | ⟨-, -, rfl⟩
        · rfl
        · rfl
      · exact Or.inr ⟨m, d, rfl, (step_eq_iff hc hm).mp hstep⟩

/-! ## So many moves -/

/-- The configuration behind the next `n` moves. -/
def afterMoves (t : Table) : Nat → Configuration → Configuration
  | 0, c => c
  | n + 1, c => t.afterMoves n (t.step c).2

/-- The moves are the steps from these configurations. -/
theorem moves_eq_map (t : Table) (n : Nat) : ∀ c : Configuration,
    t.moves n c = (List.range n).map fun k => t.step (t.afterMoves k c) := by
  induction n with
  | zero =>
      intro c
      rfl
  | succ n ih =>
      intro c
      rw [moves, ih, List.range_succ_eq_map, List.map_cons, List.map_map]
      rfl

/-- What every step keeps is so after any number of moves. -/
theorem afterMoves_of_step {I : Configuration → Prop} (hstep : ∀ c, I c → I (t.step c).2)
    (n : Nat) : ∀ {c : Configuration}, I c → I (t.afterMoves n c) := by
  induction n with
  | zero =>
      intro c hc
      exact hc
  | succ n ih =>
      intro c hc
      exact ih (hstep c hc)

/-- And it is so behind each of the moves. -/
theorem moves_of_step {I : Configuration → Prop} (hstep : ∀ c, I c → I (t.step c).2) {n : Nat}
    (hc : I c) : ∀ s ∈ t.moves n c, I s.2 := by
  intro s hs
  rw [moves_eq_map] at hs
  obtain ⟨k, -, rfl⟩ := List.mem_map.mp hs
  exact hstep _ (afterMoves_of_step hstep k hc)

theorem step_of_isDone (hc : c.isDone = true) : (t.step c).2 = c := by
  cases hstatus : c.status with
  | running => simp [Configuration.isDone, hstatus] at hc
  | accepted => simp only [step, hstatus]
  | stuck => simp only [step, hstatus]

theorem afterMoves_of_isDone (hc : c.isDone = true) (n : Nat) : t.afterMoves n c = c := by
  induction n with
  | zero => rfl
  | succ n ih => rw [afterMoves, step_of_isDone hc, ih]

/-- A running parser makes a move and is still running, or is done behind its next step. -/
theorem step_makes_or_done (t : Table) (hc : c.status = .running) :
    (∃ m d, t.step c = (m, d) ∧ Makes t c m d ∧ m ≠ .accept) ∨
      ((t.step c).1 = .accept ∨ (t.step c).1 = .error) ∧ (t.step c).2.isDone = true := by
  rcases step_cases t hc with ⟨d, hstep, hstuck⟩ | ⟨m, d, hstep, hmakes⟩
  · refine Or.inr ⟨Or.inr (by rw [hstep]), ?_⟩
    rw [hstep]
    simp [Configuration.isDone, hstuck]
  · by_cases hacc : m = .accept
    · subst hacc
      refine Or.inr ⟨Or.inl (by rw [hstep]), ?_⟩
      obtain ⟨-, rfl⟩ := hmakes.acceptsHere
      rw [hstep]
      rfl
    · exact Or.inl ⟨m, d, hstep, hmakes, hacc⟩

/-- Where the next move is the last one, the limit does not matter. -/
theorem exists_run_of_last (h : (t.step c).1 = .accept ∨ (t.step c).1 = .error) :
    ∃ r, ∀ limit, t.run (limit + 1) c = some r := by
  cases hstep : t.step c with
  | mk m d =>
      rw [hstep] at h
      rcases h with h | h
      · obtain rfl : m = .accept := h
        exact ⟨_, fun limit => by rw [run, hstep]⟩
      · obtain rfl : m = .error := h
        exact ⟨_, fun limit => by rw [run, hstep]⟩

/-- What a parser comes to in `n` moves: the end of a run of so many moves, or the last
configuration of all behind a shorter one. -/
theorem afterMoves_cases (t : Table) (n : Nat) : ∀ {c : Configuration}, c.status = .running →
    (∃ past, past.length = n ∧ Runs t c past (t.afterMoves n c)) ∨
      ∃ past d, Runs t c past d ∧ t.afterMoves n c = (t.step d).2 ∧
        (t.step d).2.isDone = true := by
  induction n with
  | zero =>
      intro c _
      exact Or.inl ⟨[], rfl, .done⟩
  | succ n ih =>
      intro c hc
      rw [afterMoves]
      rcases step_makes_or_done t hc with ⟨m, d, hstep, hmakes, hacc⟩ | ⟨-, hdone⟩
      · rw [hstep]
        rcases ih ((hmakes.running hacc).1.trans hc) with
          ⟨past, hlen, hruns⟩ | ⟨past, e, hruns, hlast⟩
        · exact Or.inl ⟨m :: past, congrArg Nat.succ hlen, .move hmakes hacc hruns⟩
        · exact Or.inr ⟨m :: past, e, .move hmakes hacc hruns, hlast⟩
      · exact Or.inr ⟨[], c, .done, afterMoves_of_isDone hdone n, hdone⟩

/-- A run is cut short by its limit exactly when the parser is not done after so many moves. -/
theorem run_eq_none_iff {limit : Nat} : ∀ {c : Configuration}, c.status = .running →
    (t.run limit c = none ↔ (t.afterMoves limit c).isDone = false) := by
  induction limit with
  | zero =>
      intro c hc
      exact iff_of_true rfl (by simp [afterMoves, Configuration.isDone, hc])
  | succ limit ih =>
      intro c hc
      rw [afterMoves]
      rcases step_makes_or_done t hc with ⟨m, d, hstep, hmakes, hacc⟩ | ⟨hlast, hdone⟩
      · rw [run_succ hstep hacc hmakes.ne_error, hstep, ← ih ((hmakes.running hacc).1.trans hc)]
        cases t.run limit d with
        | none => simp
        | some r => cases r <;> simp
      · rw [afterMoves_of_isDone hdone]
        obtain ⟨r, hr⟩ := exists_run_of_last hlast
        rw [hr]
        exact iff_of_false nofun (by simp [hdone])

theorem run_add_one {limit : Nat} {r : Except ParseError Trace} : ∀ {c : Configuration},
    c.status = .running → t.run limit c = some r → t.run (limit + 1) c = some r := by
  induction limit generalizing r with
  | zero =>
      intro c _ h
      exact nomatch h
  | succ limit ih =>
      intro c hc h
      rcases step_makes_or_done t hc with ⟨m, d, hstep, hmakes, hacc⟩ | ⟨hlast, -⟩
      · rw [run_succ hstep hacc hmakes.ne_error] at h ⊢
        cases hrun : t.run limit d with
        | none =>
            rw [hrun] at h
            exact nomatch h
        | some r' =>
            rw [ih ((hmakes.running hacc).1.trans hc) hrun, ← hrun]
            exact h
      · obtain ⟨r', hr⟩ := exists_run_of_last hlast
        rw [hr] at h ⊢
        exact h

/-- A limit that is enough leaves the outcome as it is when it is raised. -/
theorem run_of_le {limit limit' : Nat} {r : Except ParseError Trace} (hc : c.status = .running)
    (hle : limit ≤ limit') (h : t.run limit c = some r) : t.run limit' c = some r := by
  induction hle with
  | refl => exact h
  | step _ ih => exact run_add_one hc ih

/-! ## What a move sees of the input -/

variable {input : List Symbol}

theorem reduce_over (t : Table) (c : Configuration) (input : List Symbol) (i : Nat) :
    t.reduce (c.over input) i = ((t.reduce c i).1, (t.reduce c i).2.over input) := by
  rw [reduce, reduce]
  split
  · rfl
  · show (if c.stack.length ≤ _ then _ else _) = _
    split
    · rfl
    · dsimp only [Configuration.over]
      split <;> rfl

/-- A move does the same over another input with the same lookahead, unless it may accept. -/
theorem step_over (hlook : (c.over input).lookahead = c.lookahead) (hacc : ¬ AcceptsHere t c) :
    t.step (c.over input) = ((t.step c).1, (t.step c).2.over input) := by
  obtain ⟨read, position, stack, status⟩ := c
  cases status with
  | accepted => rfl
  | stuck => rfl
  | running =>
      cases stack with
      | nil => rfl
      | cons q rest =>
          simp only [Configuration.over] at hlook ⊢
          simp only [step, hlook]
          split
          · rename_i hterm
            cases hact : t.action q _ with
            | none => rfl
            | some a =>
                cases a with
                | shift r => rfl
                | reduce i => exact reduce_over t ⟨read, position, q :: rest, .running⟩ input i
                | accept => exact absurd ⟨q, rest, rfl, hterm, hact⟩ hacc
          · rfl

/-- Runs do the same over another input with the same lookaheads. -/
theorem Runs.over {past : Trace} (h : Runs t c past d) : c.status = .running →
    (∀ k ≤ d.position, input[k]?.getD endMarker = c.input[k]?.getD endMarker) →
      Runs t (c.over input) past (d.over input) := by
  induction h with
  | done =>
      intro _ _
      exact .done
  | @move c d e m past hmakes hacc hruns ih =>
      intro hc hsame
      obtain ⟨hstatus, hinput⟩ := hmakes.running hacc
      have hlook : (c.over input).lookahead = c.lookahead :=
        hsame c.position (Nat.le_trans hmakes.position_le hruns.position_le)
      have hstep := step_over hlook (hmakes.not_acceptsHere hacc)
      rw [hmakes.step_eq hc] at hstep
      have hmakes' := (step_eq_iff (c := c.over input) hc hmakes.ne_error).mp hstep
      refine .move hmakes' hacc (ih (hstatus.trans hc) ?_)
      rw [hinput]
      exact hsame

end Table

end FrontEnd
