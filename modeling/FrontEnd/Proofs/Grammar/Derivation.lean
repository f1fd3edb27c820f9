/-
# `Grammar.Derivation` — derivation trees and the moves that build them

A derivation tree has a terminal with its text at every leaf and the number of a
production at every inner node.  `From g x t` says that `t` is a tree of `g` with the
symbol `x` at its root; it is mutual with `FromAll`, the same for a list of symbols and
a list of trees.

A parser that works bottom-up meets the nodes of a tree in postorder: a shift at
every leaf, and at an inner node, when all its children are done, the reduction by
its production.  `Derivation.moves` lists them.
-/
import FrontEnd.Slr.Parser

namespace FrontEnd

namespace Grammar

/-! ## Heads and terminals -/

theorem isTerminal_iff {g : Grammar} {x : Symbol} :
    g.isTerminal x = true ↔ ∀ p ∈ g.productions, p.head ≠ x := by
  simp [isTerminal, Productions.isHead]

theorem mem_of_production? {g : Grammar} {i : Nat} {p : Production}
    (h : g.production? i = some p) : p ∈ g.productions :=
  List.mem_of_getElem? h

theorem not_isTerminal_head {g : Grammar} {i : Nat} {p : Production}
    (h : g.production? i = some p) : g.isTerminal p.head ≠ true := by
  intro ht
  exact isTerminal_iff.mp ht p (mem_of_production? h) rfl

theorem mem_productionsOf {g : Grammar} {x : Symbol} {i : Nat} :
    i ∈ g.productionsOf x ↔ ∃ p, g.production? i = some p ∧ p.head = x := by
  simp only [productionsOf, Productions.numbered, List.mem_map, List.mem_filter,
    decide_eq_true_eq, Prod.exists, production?]
  refine ⟨?_, ?_⟩
  · rintro ⟨p, j, ⟨hmem, hhead⟩, rfl⟩
    exact ⟨p, List.mem_zipIdx_iff_getElem?.mp hmem, hhead⟩
  · rintro ⟨p, hp, hhead⟩
    exact ⟨p, i, ⟨List.mem_zipIdx_iff_getElem?.mpr hp, hhead⟩, rfl⟩

/-! ## The augmenting production -/

/-- The symbol that the augmenting production derives.  What it derives are the
sentences of the grammar. -/
def root (g : Grammar) : Symbol :=
  ((g.production? g.augmenting).bind (·.body.head?)).getD g.start

theorem exists_augmenting (g : Grammar) :
    ∃ p, g.production? g.augmenting = some p ∧ p.head = g.start ∧
      Productions.isSingle g.productions p.body = true := by
  obtain ⟨p, honly, hsingle⟩ := g.wellFormed.only
  have hmem : (p, g.augmenting) ∈ Productions.numbered g.productions g.start := by
    rw [honly]
    exact List.mem_singleton_self _
  simp only [Productions.numbered, List.mem_filter, decide_eq_true_eq] at hmem
  exact ⟨p, List.mem_zipIdx_iff_getElem?.mp hmem.1, hmem.2, hsingle⟩

theorem production?_augmenting (g : Grammar) :
    ∃ p, g.production? g.augmenting = some p ∧ p.head = g.start ∧ p.body = [g.root] := by
  obtain ⟨p, hp, hhead, hsingle⟩ := g.exists_augmenting
  refine ⟨p, hp, hhead, ?_⟩
  unfold Productions.isSingle at hsingle
  split at hsingle
  · rename_i x hbody
    simp [root, hp, hbody]
  · exact absurd hsingle Bool.false_ne_true

/-- The augmenting production is the only one of the start symbol. -/
theorem eq_augmenting {g : Grammar} {i : Nat} {p : Production}
    (hp : g.production? i = some p) (hhead : p.head = g.start) : i = g.augmenting := by
  obtain ⟨q, honly, -⟩ := g.wellFormed.only
  have hmem : i ∈ g.productionsOf g.start := mem_productionsOf.mpr ⟨p, hp, hhead⟩
  rw [productionsOf, honly] at hmem
  exact List.mem_singleton.mp hmem

theorem not_isTerminal_root (g : Grammar) : g.isTerminal g.root ≠ true := by
  obtain ⟨p, hp, -, hsingle⟩ := g.exists_augmenting
  obtain ⟨q, hq, -, hbody⟩ := g.production?_augmenting
  obtain rfl : p = q := Option.some.inj (hp.symm.trans hq)
  rw [hbody] at hsingle
  simpa [isTerminal, Productions.isSingle] using hsingle

/-- The start symbol and the end marker stand outside of the rules: the start symbol is
in no body, and the end marker is in no production. -/
structure Augmented (g : Grammar) : Prop where
  start_fresh : ∀ p ∈ g.productions, g.start ∉ p.body
  end_fresh : ∀ p ∈ g.productions, p.head ≠ endMarker ∧ endMarker ∉ p.body

theorem Augmented.isTerminal_endMarker {g : Grammar} (h : g.Augmented) :
    g.isTerminal endMarker = true :=
  isTerminal_iff.mpr fun p hp => (h.end_fresh p hp).1

theorem Augmented.root_ne_endMarker {g : Grammar} (h : g.Augmented) : g.root ≠ endMarker := by
  intro he
  exact g.not_isTerminal_root (he ▸ h.isTerminal_endMarker)

end Grammar

/-! ## Derivation trees -/

/-- A derivation tree: terminals with their texts at the leaves, numbers of productions at
the inner nodes. -/
inductive Derivation where
  | leaf (terminal : Symbol) (text : String)
  | node (production : Nat) (children : List Derivation)

namespace Derivation

mutual

/-- `t` is a derivation tree of `g` for the symbol `x`. -/
inductive From (g : Grammar) : Symbol → Derivation → Prop
  | leaf {x : Symbol} {text : String} : g.isTerminal x = true → From g x (.leaf x text)
  | node {i : Nat} {p : Production} {children : List Derivation} :
      g.production? i = some p → FromAll g p.body children →
      From g p.head (.node i children)

/-- The trees are derivation trees of `g` for the symbols, one for each in turn. -/
inductive FromAll (g : Grammar) : List Symbol → List Derivation → Prop
  | nil : FromAll g [] []
  | cons {x : Symbol} {xs : List Symbol} {t : Derivation} {ts : List Derivation} :
      From g x t → FromAll g xs ts → FromAll g (x :: xs) (t :: ts)

end

mutual

/-- The leaves from left to right, each a terminal with its text. -/
def tokens : Derivation → List (Symbol × String)
  | leaf x text => [(x, text)]
  | node _ children => tokensAll children

/-- The leaves of several trees, one tree behind the other. -/
def tokensAll : List Derivation → List (Symbol × String)
  | [] => []
  | t :: ts => t.tokens ++ tokensAll ts

end

mutual

/-- The shifts and reductions that build a tree, in postorder. -/
def moves : Derivation → Trace
  | leaf _ _ => [.shift]
  | node i children => movesAll children ++ [.reduce i]

/-- The shifts and reductions that build several trees, one behind the other. -/
def movesAll : List Derivation → Trace
  | [] => []
  | t :: ts => t.moves ++ movesAll ts

end

/-- The terminals at the leaves. -/
def yield (t : Derivation) : List Symbol := t.tokens.map Prod.fst

/-- The terminals at the leaves of several trees. -/
def yieldAll (ts : List Derivation) : List Symbol := (tokensAll ts).map Prod.fst

@[simp] theorem yieldAll_nil : yieldAll [] = [] := rfl

@[simp] theorem yieldAll_cons (t : Derivation) (ts : List Derivation) :
    yieldAll (t :: ts) = t.yield ++ yieldAll ts := by
  simp [yieldAll, yield, tokensAll]

@[simp] theorem yield_node (i : Nat) (ts : List Derivation) : (node i ts).yield = yieldAll ts := rfl

theorem tokensAll_append (ts us : List Derivation) :
    tokensAll (ts ++ us) = tokensAll ts ++ tokensAll us := by
  induction ts with
  | nil => rfl
  | cons t ts ih => simp [tokensAll, ih]

@[simp] theorem yieldAll_append (ts us : List Derivation) :
    yieldAll (ts ++ us) = yieldAll ts ++ yieldAll us := by
  simp [yieldAll, tokensAll_append]

theorem movesAll_append (ts us : List Derivation) :
    movesAll (ts ++ us) = movesAll ts ++ movesAll us := by
  induction ts with
  | nil => rfl
  | cons t ts ih => simp [movesAll, ih]

/-! ## Lists of trees -/

variable {g : Grammar}

theorem FromAll.append {ys : List Symbol} {us : List Derivation} :
    ∀ {xs : List Symbol} {ts : List Derivation}, FromAll g xs ts → FromAll g ys us →
      FromAll g (xs ++ ys) (ts ++ us) := by
  intro xs
  induction xs with
  | nil =>
      intro ts h h'
      cases h
      exact h'
  | cons x xs ih =>
      intro ts h h'
      cases h with
      | cons ht hts => exact .cons ht (ih hts h')

theorem FromAll.split {ys : List Symbol} : ∀ {xs : List Symbol} {ts : List Derivation},
    FromAll g (xs ++ ys) ts → ∃ us vs, ts = us ++ vs ∧ FromAll g xs us ∧ FromAll g ys vs := by
  intro xs
  induction xs with
  | nil =>
      intro ts h
      exact ⟨[], ts, rfl, .nil, h⟩
  | cons x xs ih =>
      intro ts h
      cases h with
      | @cons _ _ t _ ht hts =>
          obtain ⟨us, vs, rfl, hus, hvs⟩ := ih hts
          exact ⟨t :: us, vs, rfl, .cons ht hus, hvs⟩

theorem FromAll.length_eq : ∀ {xs : List Symbol} {ts : List Derivation},
    FromAll g xs ts → ts.length = xs.length := by
  intro xs
  induction xs with
  | nil =>
      intro ts h
      cases h
      rfl
  | cons x xs ih =>
      intro ts h
      cases h with
      | cons _ hts => simp [ih hts]

theorem FromAll.single {x : Symbol} {ts : List Derivation} (h : FromAll g [x] ts) :
    ∃ t, ts = [t] ∧ From g x t := by
  cases h with
  | cons ht hts =>
      cases hts
      exact ⟨_, rfl, ht⟩

/-- A tree for a terminal is a leaf. -/
theorem From.eq_leaf {x : Symbol} {t : Derivation} (h : From g x t)
    (hx : g.isTerminal x = true) : ∃ text, t = .leaf x text := by
  cases h with
  | leaf _ => exact ⟨_, rfl⟩
  | node hp _ => exact absurd hx (Grammar.not_isTerminal_head hp)

/-- Trees for terminals are leaves: their leaves spell the terminals, and each is one shift. -/
theorem FromAll.terminals : ∀ {xs : List Symbol} {ts : List Derivation}, FromAll g xs ts →
    (∀ x ∈ xs, g.isTerminal x = true) →
    yieldAll ts = xs ∧ movesAll ts = List.replicate xs.length .shift := by
  intro xs
  induction xs with
  | nil =>
      intro ts h _
      cases h
      exact ⟨rfl, rfl⟩
  | cons x xs ih =>
      intro ts h hxs
      obtain ⟨hx, hxs⟩ := List.forall_mem_cons.mp hxs
      cases h with
      | cons ht hts =>
          obtain ⟨text, rfl⟩ := ht.eq_leaf hx
          obtain ⟨hy, hm⟩ := ih hts hxs
          refine ⟨?_, ?_⟩
          · rw [yieldAll_cons, hy]
            rfl
          · rw [movesAll, hm]
            rfl

/-- Every word of terminals is spelled by leaves. -/
theorem fromAll_leaves : ∀ {w : List Symbol}, (∀ x ∈ w, g.isTerminal x = true) →
    ∃ ts, FromAll g w ts := by
  intro w
  induction w with
  | nil =>
      intro _
      exact ⟨[], .nil⟩
  | cons x w ih =>
      intro hw
      obtain ⟨hx, hw⟩ := List.forall_mem_cons.mp hw
      obtain ⟨ts, hts⟩ := ih hw
      exact ⟨.leaf x x :: ts, .cons (.leaf hx) hts⟩

/-! ## What stands at the leaves -/

mutual

theorem From.yield_terminal {x : Symbol} {t : Derivation} (h : From g x t) :
    ∀ y ∈ t.yield, g.isTerminal y = true := by
  intro y hy
  cases h with
  | leaf hx =>
      obtain rfl := List.mem_singleton.mp hy
      exact hx
  | node _ hts => exact hts.yield_terminal y hy

theorem FromAll.yield_terminal {xs : List Symbol} {ts : List Derivation} (h : FromAll g xs ts) :
    ∀ y ∈ yieldAll ts, g.isTerminal y = true := by
  intro y hy
  cases h with
  | nil => exact absurd hy List.not_mem_nil
  | cons ht hts =>
      rw [yieldAll_cons] at hy
      rcases List.mem_append.mp hy with hy | hy
      · exact ht.yield_terminal y hy
      · exact hts.yield_terminal y hy

end

mutual

/-- The end marker is at no leaf, unless it is the whole tree. -/
theorem From.endMarker_notMem (hg : g.Augmented) {x : Symbol} {t : Derivation}
    (h : From g x t) (hx : x ≠ endMarker) : endMarker ∉ t.yield := by
  intro hy
  cases h with
  | leaf _ => exact hx (List.mem_singleton.mp hy).symm
  | node hp hts =>
      exact hts.endMarker_notMem hg (hg.end_fresh _ (Grammar.mem_of_production? hp)).2 hy

theorem FromAll.endMarker_notMem (hg : g.Augmented) {xs : List Symbol} {ts : List Derivation}
    (h : FromAll g xs ts) (hxs : endMarker ∉ xs) : endMarker ∉ yieldAll ts := by
  intro hy
  cases h with
  | nil => exact absurd hy List.not_mem_nil
  | cons ht hts =>
      rw [yieldAll_cons] at hy
      rcases List.mem_append.mp hy with hy | hy
      · exact ht.endMarker_notMem hg (fun he => hxs (he ▸ List.mem_cons_self)) hy
      · exact hts.endMarker_notMem hg (fun he => hxs (List.mem_cons_of_mem _ he)) hy

end

mutual

/-- A tree is built with one shift for each leaf. -/
theorem count_shift_moves (t : Derivation) : t.moves.count .shift = t.tokens.length := by
  match t with
  | .leaf _ _ => rfl
  | .node i ts => simp [moves, tokens, count_shift_movesAll ts]

theorem count_shift_movesAll (ts : List Derivation) :
    (movesAll ts).count .shift = (tokensAll ts).length := by
  match ts with
  | [] => rfl
  | t :: ts => simp [movesAll, tokensAll, count_shift_moves t, count_shift_movesAll ts]

end

end Derivation

end FrontEnd
