/-
# `Lr.Drawing` — what can be read off the drawing of an automaton

Names occur in a drawing only in its labels, and these stand between quotes.  The rest is numbers
and fixed texts without a quote, so whoever looks for quotes finds the labels one after the other
(`quotes_toDot`), and reads in them the texts of the items and the symbols of the transitions.

The text of an item says less than the item.  Names stand side by side with a space between them,
and the dot is a word like any other, so it takes names without spaces, none of them the dot, to
tell what has been read of which body (`same_of_text_eq`).  Which of several equal productions it
was is not told even then; but a state that has an item has it for each of these (`Holds.twin`).
-/
import FrontEnd.Proofs.Lr.Labels
import FrontEnd.Proofs.Lr.Words

namespace FrontEnd.Lr

/-! ## Quoted strings -/

/-- The texts between quotes, as they are written.  With `none` the text starts outside of quotes,
with `some b` inside, its first character protected if `b` says so; what is left of the text that it
starts in is then the first one. -/
def quoted : Option Bool → List Char → Option (List (List Char))
  | none, [] => some []
  | some _, [] => none
  | none, c :: cs => if c = '"' then quoted (some false) cs else quoted none cs
  | some b, c :: cs =>
    if c = '"' ∧ b = false then (quoted none cs).map ([] :: ·)
    else (quoted (some (!b && c = '\\')) cs).map (List.modifyHead (c :: ·))

/-- The quoted strings of a text, without their quotes. -/
def quotedStrings (text : String) : Option (List String) :=
  (quoted none text.toList).map (List.map String.ofList)

/-- The text starts and ends outside of quotes, and these are its quoted strings. -/
def Quotes (text : String) (strings : List String) : Prop :=
  ∀ rest, quoted none (text.toList ++ rest) =
    (quoted none rest).map (strings.map String.toList ++ ·)

theorem quoted_outside {cs : List Char} (h : '"' ∉ cs) (rest : List Char) :
    quoted none (cs ++ rest) = quoted none rest := by
  induction cs with
  | nil => rfl
  | cons c cs ih =>
      obtain ⟨hc, hcs⟩ := List.ne_and_not_mem_of_not_mem_cons h
      rw [List.cons_append, quoted, if_neg (Ne.symm hc)]
      exact ih hcs

/-- What leaves the quotes around it alone is one string. -/
theorem quoted_inside {cs : List Char} (rest : List Char) : ∀ {b},
    inside b cs = some false →
      quoted (some b) (cs ++ '"' :: rest) = (quoted none rest).map (cs :: ·) := by
  induction cs with
  | nil =>
      intro b h
      obtain rfl := Option.some.inj h
      rfl
  | cons c cs ih =>
      intro b h
      rw [inside] at h
      split at h
      · cases h
      · rename_i hc
        rw [List.cons_append, quoted, if_neg hc, ih h, Option.map_map]
        rfl

namespace Quotes

variable {text text' : String} {strings strings' : List String}

theorem plain (h : '"' ∉ text.toList) : Quotes text [] := by
  intro rest
  rw [quoted_outside h]
  exact Option.map_id'.symm

theorem append (h : Quotes text strings) (h' : Quotes text' strings') :
    Quotes (text ++ text') (strings ++ strings') := by
  intro rest
  rw [String.toList_append, List.append_assoc, h, h', Option.map_map, List.map_append]
  congr 1
  funext more
  exact (List.append_assoc _ _ _).symm

/-- A label between quotes, with no other quotes around. -/
theorem label {front label back : String} (hfront : '"' ∉ front.toList)
    (h : inside false label.toList = some false) (hback : '"' ∉ back.toList) :
    Quotes (front ++ ("\"" ++ label ++ "\"") ++ back) [label] := by
  have hlabel : Quotes ("\"" ++ label ++ "\"") [label] := by
    intro rest
    rw [String.toList_append, String.toList_append, List.append_assoc, List.append_assoc]
    exact quoted_inside rest h
  exact ((plain hfront).append hlabel).append (plain hback)

theorem join {α : Type} {f : α → String} {g : α → List String} {l : List α}
    (h : ∀ x ∈ l, Quotes (f x) (g x)) : Quotes (String.join (l.map f)) (l.flatMap g) := by
  induction l with
  | nil => exact plain (by simp)
  | cons x l ih =>
      rw [List.map_cons, String.join_cons, List.flatMap_cons]
      exact (h x List.mem_cons_self).append (ih fun y hy => h y (List.mem_cons_of_mem x hy))

/-- One quoted string in each text. -/
theorem join_map {α : Type} {f g : α → String} {l : List α} (h : ∀ x ∈ l, Quotes (f x) [g x]) :
    Quotes (String.join (l.map f)) (l.map g) := by
  rw [List.map_eq_flatMap (f := g)]
  exact join h

theorem quotedStrings_eq (h : Quotes text strings) : quotedStrings text = some strings := by
  have hall := h []
  rw [List.append_nil] at hall
  rw [quotedStrings, hall]
  simp [quoted, Function.comp_def]

end Quotes

/-- Numbers are written without quotes. -/
theorem quote_notMem_toDigits (n : Nat) : '"' ∉ Nat.toDigits 10 n := by
  intro h
  exact absurd (Nat.isDigit_of_mem_toDigits (Nat.succ_pos 9) (Nat.le_refl 10) h) (by decide)

/-! ## The drawing -/

/-- The label of a state. -/
def State.label (g : Grammar) (s : State) : String := labelText (s.items.toList.map (Item.text g))

theorem quotes_node (q : Nat) {label : String} (h : inside false label.toList = some false) :
    Quotes s!"\t{q} [label=\"{label}\"];\n" [label] := by
  have hopen : " [label=\"" = " [label=" ++ "\"" := rfl
  have hclose : "\"];\n" = "\"" ++ "];\n" := rfl
  have hsplit : s!"\t{q} [label=\"{label}\"];\n" =
      "\t" ++ toString q ++ " [label=" ++ ("\"" ++ label ++ "\"") ++ "];\n" := by
    show "\t" ++ toString q ++ " [label=\"" ++ label ++ "\"];\n" = _
    rw [hopen, hclose]
    simp only [String.append_assoc]
  rw [hsplit]
  exact .label (by simp [quote_notMem_toDigits]) h (by simp)

theorem quotes_edge (q r : Nat) {label : String} (h : inside false label.toList = some false) :
    Quotes (Dot.edge q r label) [label] := by
  have hopen : " [label = \"" = " [label = " ++ "\"" := rfl
  have hclose : "\"];" = "\"" ++ "];" := rfl
  have hsplit : Dot.edge q r label =
      "\t" ++ toString q ++ " -> " ++ toString r ++ " [label = " ++ ("\"" ++ label ++ "\"") ++
        "];" := by
    show "\t" ++ toString q ++ " -> " ++ toString r ++ " [label = \"" ++ label ++ "\"];" = _
    rw [hclose, hopen]
    simp only [String.append_assoc]
  rw [hsplit]
  exact .label (by simp [quote_notMem_toDigits]) h (by simp)

theorem join_flatMap {α : Type} (f : α → List String) (l : List α) :
    String.join (l.flatMap f) = String.join (l.map fun x => String.join (f x)) := by
  induction l with
  | nil => rfl
  | cons x l ih => rw [List.flatMap_cons, String.join_append, ih, List.map_cons, String.join_cons]

theorem quotes_nodes (a : Automaton) (g : Grammar) :
    Quotes (String.join (a.states.map fun s => s!"\t{s.id} [label=\"{s.label g}\"];\n"))
      (a.states.map (State.label g)) :=
  .join_map fun s _ => quotes_node s.id (inside_labelText _)

theorem quotes_edges (a : Automaton) :
    Quotes (String.join (a.states.flatMap fun s =>
        s.transitions.map fun (x, target) => Dot.edge s.id target (escapeLabel x) ++ "\n"))
      (a.states.flatMap fun s => s.transitions.map fun t => escapeLabel t.1) := by
  rw [join_flatMap]
  refine .join fun s _ => .join_map fun t _ => ?_
  exact (quotes_edge s.id t.2 (inside_escapeLabel t.1)).append (.plain (by simp))

/-- The quoted strings of the drawing are the labels of the states and then those of the
transitions. -/
theorem quotes_toDot (a : Automaton) (g : Grammar) :
    Quotes (a.toDot g) (a.states.map (State.label g) ++
      a.states.flatMap fun s => s.transitions.map fun t => escapeLabel t.1) := by
  have hopen : Quotes ("digraph " ++ "cfsm" ++ " \x7b\n") [] := .plain (by simp)
  have hhead : Quotes "\trankdir=LR;\n\n\tnode [shape=rectangle];\n" [] := .plain (by simp)
  have hline : Quotes "\n" [] := .plain (by simp)
  have hclose : Quotes "\x7d" [] := .plain (by simp)
  have hcontent := ((hhead.append (quotes_nodes a g)).append hline).append (quotes_edges a)
  have hall := ((hopen.append hcontent).append hclose).append hline
  simp only [List.nil_append, List.append_nil] at hall
  exact hall

/-! ## Texts of items -/

/-- The words of the text of an item. -/
def wordsOf (p : Production) (dot : Nat) : List Symbol :=
  p.head :: "->" :: (p.body.take dot ++ "•" :: p.body.drop dot)

/-- No name has a space in it, and none in a body is the dot. -/
def Plain (g : Grammar) : Prop :=
  ∀ p ∈ g.productions, ' ' ∉ p.head.toList ∧ ∀ x ∈ p.body, ' ' ∉ x.toList ∧ x ≠ "•"

instance (g : Grammar) : Decidable (Plain g) :=
  inferInstanceAs (Decidable (∀ p ∈ g.productions, _ ∧ ∀ x ∈ p.body, _ ∧ x ≠ "•"))

variable {g : Grammar} {i j : Item} {p q : Production}

theorem intercalate_space (cs : List Char) (words : List (List Char)) :
    [' '].intercalate (cs :: words) = cs ++ words.flatMap (' ' :: ·) := by
  induction words generalizing cs with
  | nil => simp
  | cons ds words ih =>
      rw [List.intercalate_cons_cons, ih, List.flatMap_cons, List.append_assoc]
      rfl

theorem toList_text (hp : g.production? i.production = some p) :
    (i.text g).toList = [' '].intercalate ((wordsOf p i.dot).map String.toList) := by
  have hspace : ∀ s : String, (" " ++ s).toList = ' ' :: s.toList := fun s => by simp
  rw [Item.text, hp, wordsOf, List.map_cons, intercalate_space]
  simp only [String.toList_append, String.toList_join, List.flatMap_map, hspace, List.map_cons,
    List.flatMap_cons, List.append_assoc]
  rfl

theorem words_plain (hg : Plain g) (hp : g.production? i.production = some p) :
    ∀ word ∈ (wordsOf p i.dot).map String.toList, ' ' ∉ word := by
  obtain ⟨hhead, hbody⟩ := hg p (Grammar.mem_of_production? hp)
  intro word hword
  obtain ⟨x, hx, rfl⟩ := List.mem_map.mp hword
  simp only [wordsOf, List.mem_cons, List.mem_append] at hx
  rcases hx with rfl | rfl | hx | rfl | hx
  · exact hhead
  · decide
  · exact (hbody x (List.mem_of_mem_take hx)).1
  · decide
  · exact (hbody x (List.mem_of_mem_drop hx)).1

/-- Where no name has a space in it, the text of an item falls apart into its words. -/
theorem words_eq_of_text_eq (hg : Plain g) (hp : g.production? i.production = some p)
    (hq : g.production? j.production = some q) (h : i.text g = j.text g) :
    wordsOf p i.dot = wordsOf q j.dot := by
  have hlist := congrArg String.toList h
  rw [toList_text hp, toList_text hq] at hlist
  have hsplit := congrArg (List.splitOn ' ') hlist
  rw [List.splitOn_intercalate ' ' (words_plain hg hp) (List.cons_ne_nil _ _),
    List.splitOn_intercalate ' ' (words_plain hg hq) (List.cons_ne_nil _ _)] at hsplit
  exact List.map_injective_iff.mpr (fun _ _ => String.toList_inj.mp) hsplit

/-- And where none is the dot, the words tell what has been read of which body. -/
theorem same_of_text_eq (hg : Plain g) (hp : g.production? i.production = some p)
    (hq : g.production? j.production = some q) (hi : i.dot ≤ p.body.length)
    (hj : j.dot ≤ q.body.length) (h : i.text g = j.text g) :
    p.head = q.head ∧ p.body = q.body ∧ i.dot = j.dot := by
  obtain ⟨hhead, hrest⟩ := List.cons.inj (words_eq_of_text_eq hg hp hq h)
  have hdot : "•" ∉ p.body := fun hmem => ((hg p (Grammar.mem_of_production? hp)).2 _ hmem).2 rfl
  have hbefore : "•" ∉ p.body.take i.dot := fun hmem => hdot (List.mem_of_mem_take hmem)
  have hbehind : "•" ∉ p.body.drop i.dot := fun hmem => hdot (List.mem_of_mem_drop hmem)
  obtain ⟨htake, -, hdrop⟩ :=
    (List.append_cons_inj_of_notMem hbefore hbehind).mp (List.cons.inj hrest).2
  refine ⟨hhead, ?_, ?_⟩
  · rw [← List.take_append_drop i.dot p.body, htake, hdrop, List.take_append_drop]
  · have hlength := congrArg List.length htake
    rwa [List.length_take, List.length_take, Nat.min_eq_left hi, Nat.min_eq_left hj] at hlength

/-! ## States with the same label -/

/-- Of two equal productions, each is read wherever the other one is. -/
theorem Valid.twin {xs : List Symbol} (h : Valid g xs i) {k : Nat}
    (hp : g.production? i.production = some p) (hq : g.production? k = some q)
    (hhead : p.head = q.head) (hbody : p.body = q.body) : Valid g xs ⟨k, i.dot⟩ := by
  induction h with
  | start =>
      obtain ⟨r, hr, hstart, -⟩ := g.production?_augmenting
      obtain rfl : p = r := Option.some.inj (hp.symm.trans hr)
      obtain rfl := g.eq_augmenting hq (hhead.symm.trans hstart)
      exact .start
  | predict hi hj =>
      obtain ⟨hdot, r, hr, hnext⟩ := Item.mem_predicted.mp hj
      obtain rfl : p = r := Option.some.inj (hp.symm.trans hr)
      rw [hhead] at hnext
      exact .predict hi (Item.mem_predicted.mpr ⟨hdot, q, hq, hnext⟩)
  | @advance xs i x _ hnext ih =>
      have hp : g.production? i.production = some p := hp
      have hnext' : Item.next g ⟨k, i.dot⟩ = some x := by
        rw [Item.next, hp] at hnext
        rw [Item.next, hq, ← hnext]
        exact congrArg (·[i.dot]?) hbody.symm
      exact .advance (ih hp) hnext'

theorem Holds.twin {n k : Nat} (h : Holds g n i)
    (hp : g.production? i.production = some p) (hq : g.production? k = some q)
    (hhead : p.head = q.head) (hbody : p.body = q.body) : Holds g n ⟨k, i.dot⟩ := by
  obtain ⟨s, hs, -⟩ := id h
  have hlt : n < (Automaton.ofGrammar g).size := by
    rw [size_ofGrammar]
    exact (List.getElem?_eq_some_iff.mp hs).1
  obtain ⟨word, hword⟩ := (canonical_ofGrammar g).reached n hlt
  obtain ⟨stack, hpath⟩ := exists_path_of_word hword
  exact Path.holds ((hpath.valid h).twin hp hq hhead hbody) hpath

/-- The items of a state have their texts in another one only if they are there, too. -/
theorem holds_of_text_mem {m n : Nat} {t : State} (hg : Plain g) (hi : Holds g m i)
    (ht : (Automaton.ofGrammar g).state? n = some t)
    (htext : i.text g ∈ t.items.toList.map (Item.text g)) : i ∈ t.items := by
  obtain ⟨j, hj, htext⟩ := List.mem_map.mp htext
  have hj : Holds g n j := holds_iff.mpr ⟨t, ht, hj⟩
  obtain ⟨p, hp, hidot⟩ := hi.within
  obtain ⟨q, hq, hjdot⟩ := hj.within
  obtain ⟨hhead, hbody, hdot⟩ := same_of_text_eq hg hq hp hjdot hidot htext
  obtain ⟨t', ht', hmem⟩ := holds_iff.mp (hj.twin hq hp hhead hbody)
  obtain rfl : t = t' := Option.some.inj (ht.symm.trans ht')
  rwa [hdot] at hmem

theorem texts_ne_nil {s : State} (hs : s ∈ (Automaton.ofGrammar g).states) :
    s.items.toList.map (Item.text g) ≠ [] := by
  obtain ⟨i, hi⟩ := (canonical_ofGrammar g).nonempty s hs
  exact List.ne_nil_of_mem (List.mem_map_of_mem hi)

theorem label_inj (hg : Plain g) {m n : Nat} {s t : State}
    (hs : (Automaton.ofGrammar g).state? m = some s)
    (ht : (Automaton.ofGrammar g).state? n = some t) (h : s.label g = t.label g) : m = n := by
  have htexts := (labelText_inj (texts_ne_nil (List.mem_of_getElem? hs))
    (texts_ne_nil (List.mem_of_getElem? ht))).mp h
  refine (canonical_ofGrammar g).distinct hs ht (SortedSet.ext fun i => ⟨?_, ?_⟩) <;> intro hi
  · refine holds_of_text_mem hg (holds_iff.mpr ⟨s, hs, hi⟩) ht ?_
    rw [← htexts]
    exact List.mem_map_of_mem hi
  · refine holds_of_text_mem hg (holds_iff.mpr ⟨t, ht, hi⟩) hs ?_
    rw [htexts]
    exact List.mem_map_of_mem hi

/-! ## Reading the drawing -/

/-- **Labels can be read back.**  Escaping doubles the backslashes and protects the quotes after
that.  However the lines of a label are spelled, each quote in it is protected, the quote behind it
is not, and it is read as these lines.  So the quoted strings of the drawing of a grammar are its
labels, those of the states are read as the texts of their items and those of the transitions as
their symbols, and labels are equal only if the texts of the items are.  If no name has a space in
it and none is the dot, two states do not have the same label. -/
theorem drawing_reads_back :
    (∀ s, (escapeLabel s).toList =
      replaced '"' ['\\', '"'] (replaced '\\' ['\\', '\\'] s.toList)) ∧
    (∀ lines : List String, lines ≠ [] → Legible lines) ∧
    (∀ s, readLabel (escapeLabel s) = some [s]) ∧
    ∀ g : Grammar,
      quotedStrings ((Automaton.ofGrammar g).toDot g) =
        some ((Automaton.ofGrammar g).states.map (State.label g) ++
          (Automaton.ofGrammar g).states.flatMap fun s =>
            s.transitions.map fun t => escapeLabel t.1) ∧
      (∀ s ∈ (Automaton.ofGrammar g).states,
        readLabel (s.label g) = some (s.items.toList.map (Item.text g))) ∧
      (∀ is js : List Item, is ≠ [] → js ≠ [] →
        (labelText (is.map (Item.text g)) = labelText (js.map (Item.text g)) ↔
          is.map (Item.text g) = js.map (Item.text g))) ∧
      (Plain g → ∀ {m n : Nat} {s t : State}, (Automaton.ofGrammar g).state? m = some s →
        (Automaton.ofGrammar g).state? n = some t → s.label g = t.label g → m = n) := by
  refine ⟨toList_escapeLabel, fun _ => legible_of_ne_nil, readLabel_escapeLabel, fun g => ?_⟩
  refine ⟨(quotes_toDot _ g).quotedStrings_eq, ?_, fun is js his hjs => ?_, label_inj⟩
  · intro s hs
    exact readLabel_labelText (texts_ne_nil hs)
  · exact labelText_inj (his ∘ List.map_eq_nil_iff.mp) (hjs ∘ List.map_eq_nil_iff.mp)

/-- Names of quotes, backslashes and the letter that ends a line. -/
def awkward : Grammar :=
  ⟨"S'", 0, [⟨"S'", ["S"], none⟩, ⟨"S", ["\"", "S", "\\"], none⟩, ⟨"S", ["\\n", "\\\""], none⟩],
    ⟨⟨⟨"S'", ["S"], none⟩, by decide +kernel, by decide +kernel⟩, by decide +kernel⟩⟩

theorem drawing_reads_back_awkward :
    (["n\\", "\"n"] : List String) ≠ [] ∧ labelText ["n\\", "\"n"] = "n\\\\\\n\\\"n" ∧
      Legible ["n\\", "\"n"] ∧ Plain awkward ∧
      labelText ([⟨1, 3⟩].map (Item.text awkward)) ≠ labelText ([⟨2, 2⟩].map (Item.text awkward)) ∧
      ∃ s t, (Automaton.ofGrammar awkward).state? 2 = some s ∧
        (Automaton.ofGrammar awkward).state? 3 = some t ∧ s.label awkward ≠ t.label awkward := by
  obtain ⟨-, hlegible, -, hgrammar⟩ := drawing_reads_back
  obtain ⟨-, -, htexts, hstates⟩ := hgrammar awkward
  have hne : (["n\\", "\"n"] : List String) ≠ [] := List.cons_ne_nil _ _
  have hplain : Plain awkward := by decide
  refine ⟨hne, rfl, hlegible _ hne, hplain, fun hlabels => ?_, _, _, rfl, rfl, fun hlabels => ?_⟩
  · have hsame := htexts [⟨1, 3⟩] [⟨2, 2⟩] (List.cons_ne_nil _ _) (List.cons_ne_nil _ _)
    exact absurd (hsame.mp hlabels) (by decide)
  · have hsame : 2 = 3 := hstates hplain rfl rfl hlabels
    exact absurd hsame (by decide)

/-- One symbol with a space in its name, or two without. -/
def spaced : Grammar :=
  ⟨"S'", 0, [⟨"S'", ["S"], none⟩, ⟨"S", ["a b"], none⟩, ⟨"S", ["a", "b"], none⟩],
    ⟨⟨⟨"S'", ["S"], none⟩, by decide +kernel, by decide +kernel⟩, by decide +kernel⟩⟩

/-- The text of an item does not show where a name ends, so that names with spaces can give two
states the same label. -/
theorem same_label_of_spaces :
    ∃ s t, (Automaton.ofGrammar spaced).state? 2 = some s ∧
      (Automaton.ofGrammar spaced).state? 4 = some t ∧ s.items.toList = [⟨1, 1⟩] ∧
      t.items.toList = [⟨2, 2⟩] ∧ s.label spaced = "S -> a b •" ∧ t.label spaced = "S -> a b •" :=
  ⟨_, _, rfl, rfl, by decide +kernel, by decide +kernel, by decide +kernel, by decide +kernel⟩

end FrontEnd.Lr
