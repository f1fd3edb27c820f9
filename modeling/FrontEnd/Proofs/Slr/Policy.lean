/-
# `Slr.Policy` — the two policies write the same table up to the first conflict

Both policies make the same writes in the same order.  A write without a conflict has the same
outcome under both, and a write with one stops the policy that refuses conflicts, while the other
notes the conflict and goes on (`write_cases`).  What has been noted is never taken back
(`exists_foldlM_lastWins`), so the conflict at which the one policy stops is the first that the
other has noted (`foldlM_reject`).
-/
import FrontEnd.Slr.Table

namespace FrontEnd.Table

/-- What a table says of the policy that refuses conflicts, when the later action has won in it:
the table itself if nothing was overwritten, and otherwise the first conflict. -/
def strict (t : Table) : Except Conflict Table :=
  match t.overwritten with
  | [] => .ok t
  | conflict :: _ => .error conflict

theorem strict_eq_ok_iff {t u : Table} : t.strict = .ok u ↔ u = t ∧ t.overwritten = [] := by
  unfold strict
  split
  · rename_i hnone
    simp [hnone, eq_comm]
  · rename_i hsome
    simp [hsome]

theorem strict_eq_error_iff {t : Table} {conflict : Conflict} :
    t.strict = .error conflict ↔ t.overwritten.head? = some conflict := by
  unfold strict
  split
  · rename_i hnone
    simp [hnone]
  · rename_i hsome
    simp [hsome]

/-- One write under the two policies. -/
theorem write_cases (t : Table) (c : Claim) :
    (∃ u, write .lastWins t c = .ok u ∧ write .reject t c = .ok u ∧
      u.overwritten = t.overwritten) ∨
    ∃ u conflict, write .lastWins t c = .ok u ∧ write .reject t c = .error conflict ∧
      u.overwritten = t.overwritten ++ [conflict] := by
  unfold write
  split
  · exact Or.inl ⟨_, rfl, rfl, rfl⟩
  · split
    · exact Or.inl ⟨_, rfl, rfl, rfl⟩
    · exact Or.inr ⟨_, _, rfl, rfl, rfl⟩

/-- Where the later action wins, writing does not fail, and no conflict is forgotten. -/
theorem exists_foldlM_lastWins : ∀ (cs : List Claim) (t : Table),
    ∃ u, cs.foldlM (write .lastWins) t = .ok u ∧ t.overwritten <+: u.overwritten := by
  intro cs
  induction cs with
  | nil =>
      intro t
      exact ⟨t, rfl, List.prefix_rfl⟩
  | cons c cs ih =>
      intro t
      obtain ⟨v, hv, hprefix⟩ : ∃ v, write .lastWins t c = .ok v ∧
          t.overwritten <+: v.overwritten := by
        rcases write_cases t c with ⟨v, hv, -, hsame⟩ | ⟨v, conflict, hv, -, hmore⟩
        · exact ⟨v, hv, hsame ▸ List.prefix_rfl⟩
        · exact ⟨v, hv, hmore ▸ List.prefix_append _ _⟩
      obtain ⟨u, hu, hlater⟩ := ih v
      refine ⟨u, ?_, hprefix.trans hlater⟩
      rw [List.foldlM_cons, hv]
      exact hu

/-- The same writes where conflicts are refused. -/
theorem foldlM_reject {u : Table} : ∀ {cs : List Claim} {t : Table}, t.overwritten = [] →
    cs.foldlM (write .lastWins) t = .ok u → cs.foldlM (write .reject) t = u.strict := by
  intro cs
  induction cs with
  | nil =>
      intro t hnone h
      obtain rfl := Except.ok.inj h
      exact (strict_eq_ok_iff.mpr ⟨rfl, hnone⟩).symm
  | cons c cs ih =>
      intro t hnone h
      rw [List.foldlM_cons] at h ⊢
      rcases write_cases t c with ⟨v, hwins, hreject, hsame⟩ | ⟨v, conflict, hwins, hreject, hmore⟩
      · rw [hwins] at h
        rw [hreject]
        exact ih (hsame.trans hnone) h
      · -- here the policies part, and what comes later leaves the conflict in the first place
        rw [hwins] at h
        rw [hreject]
        obtain ⟨u', hu', later, hlater⟩ := exists_foldlM_lastWins cs v
        obtain rfl : u' = u := Except.ok.inj (hu'.symm.trans h)
        rw [hmore, hnone] at hlater
        exact (strict_eq_error_iff.mpr (by rw [← hlater]; rfl)).symm

/-- **The two policies agree.**  Letting the later action win always makes a table.  Refusing
conflicts makes a table exactly when nothing was overwritten in that one, and then the two are the
same; and it fails with a conflict exactly when that one is the first to have been overwritten, so
that the first warning names the same cell, with the incoming action in the place of the
existing one. -/
theorem policies_agree (g : Grammar) :
    ∃ t, build .lastWins g = .ok t ∧
      (∀ u, build .reject g = .ok u ↔ u = t ∧ t.overwritten = []) ∧
      ∀ state symbol existing incoming,
        (build .reject g = .error ⟨state, symbol, existing, incoming⟩ ↔
          t.overwritten.head? = some ⟨state, symbol, existing, incoming⟩) ∧
        (build .reject g = .error ⟨state, symbol, existing, incoming⟩ →
          (t.overwritten.map Conflict.warning).head? =
            some (s!"conflict in state {state} on `{symbol}`: " ++ incoming.text ++
              " replaces " ++ existing.text)) := by
  obtain ⟨t, ht, -⟩ := exists_foldlM_lastWins
    (shiftClaims (Lr.Automaton.ofGrammar g) ++ reduceClaims g (Lr.Automaton.ofGrammar g))
    (blank g (Lr.Automaton.ofGrammar g))
  have hreject : build .reject g = t.strict := foldlM_reject rfl ht
  refine ⟨t, ht, ?_, ?_⟩
  · intro u
    rw [hreject, strict_eq_ok_iff]
  · intro state symbol existing incoming
    rw [hreject, strict_eq_error_iff]
    refine ⟨Iff.rfl, ?_⟩
    intro hfirst
    rw [List.head?_map, hfirst]
    rfl

/-- Differences without a side: `E - E - E` can be read in two ways. -/
def sidelessDifferences : Grammar :=
  ⟨"E'", 0, [⟨"E'", ["E"], none⟩, ⟨"E", ["E", "-", "E"], none⟩, ⟨"E", ["n"], none⟩],
    ⟨⟨⟨"E'", ["E"], none⟩, by decide +kernel, by decide +kernel⟩, by decide +kernel⟩⟩

theorem policies_agree_sidelessDifferences :
    build .reject sidelessDifferences = .error ⟨4, "-", .shift 3, .reduce 1⟩ ∧
    ∃ t, build .lastWins sidelessDifferences = .ok t ∧
      (t.overwritten.map Conflict.warning).head? =
        some "conflict in state 4 on `-`: reduce(1) replaces shift(3)" := by
  have heval : (match build .reject sidelessDifferences with
      | .ok _ => none
      | .error conflict => some conflict) = some ⟨4, "-", .shift 3, .reduce 1⟩ := by
    decide +kernel
  have hreject : build .reject sidelessDifferences = .error ⟨4, "-", .shift 3, .reduce 1⟩ := by
    split at heval
    · exact nomatch heval
    · rename_i hconflict
      rw [hconflict, Option.some.inj heval]
  obtain ⟨t, ht, -, hfirst⟩ := policies_agree sidelessDifferences
  refine ⟨hreject, t, ht, ?_⟩
  rw [(hfirst 4 "-" (.shift 3) (.reduce 1)).2 hreject]
  rfl

end FrontEnd.Table
