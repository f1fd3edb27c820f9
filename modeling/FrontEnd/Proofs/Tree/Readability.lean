/-
# `Tree.Readability` — the text of a tree can be read in one way

A label without spaces and parentheses ends where the first of these stands, or where the text ends,
and that is so at every depth.  So a text that starts with the text of a tree says where that tree
ends and the next thing begins, whatever it is (`Node.text_append_inj`).  The induction has
to carry what stands behind a tree, since that is what the text of its parent goes on with; and
it goes over lists of trees as well, each of them closed by the parenthesis of the parent.

Labels may be empty.  That they have no separators in them is needed, though: a leaf can spell
out a whole tree.
-/
import FrontEnd.Tree.Node

namespace FrontEnd.Node

/-! ## Labels -/

/-- The characters that the text of a tree puts between labels. -/
def separators : List Char := [' ', '(', ')']

/-- The label has no separator in it. -/
def Unbroken (label : String) : Prop := ∀ c ∈ label.toList, c ∉ separators

/-- What can stand behind the text of a tree: nothing, or the space in front of the next
tree, or the end of the tree around it. -/
def Ends (rest : List Char) : Prop := ∀ c ∈ rest.head?, c = ' ' ∨ c = ')'

theorem ends_nil : Ends [] := fun _ h => nomatch h

theorem ends_space (rest : List Char) : Ends (' ' :: rest) := by
  intro c hc
  exact Or.inl (Option.some.inj hc).symm

theorem ends_close (rest : List Char) : Ends (')' :: rest) := by
  intro c hc
  exact Or.inr (Option.some.inj hc).symm

variable {a b : String} {rest rest' : List Char}

/-- A label is what stands in front of the first separator. -/
theorem takeWhile_label (ha : Unbroken a) (hrest : Ends rest) :
    (a.toList ++ rest).takeWhile (· ∉ separators) = a.toList := by
  have hstop : rest.takeWhile (· ∉ separators) = [] := by
    cases rest with
    | nil => rfl
    | cons c rest =>
        refine List.takeWhile_cons_of_neg ?_
        rcases hrest c rfl with rfl | rfl
        · simp [separators]
        · simp [separators]
  rw [List.takeWhile_append_of_pos, hstop, List.append_nil]
  intro c hc
  exact decide_eq_true (ha c hc)

theorem label_append_inj (ha : Unbroken a) (hb : Unbroken b) (hrest : Ends rest)
    (hrest' : Ends rest') (h : a.toList ++ rest = b.toList ++ rest') : a = b ∧ rest = rest' := by
  have hlabel : a.toList = b.toList := by
    rw [← takeWhile_label ha hrest, h, takeWhile_label hb hrest']
  rw [hlabel] at h
  exact ⟨String.toList_inj.mp hlabel, List.append_cancel_left h⟩

/-- A label does not begin like a tree with children. -/
theorem label_append_ne_open (ha : Unbroken a) (hrest : Ends rest) (more : List Char) :
    a.toList ++ rest ≠ '(' :: more := by
  intro h
  cases hlabel : a.toList with
  | nil =>
      rw [hlabel, List.nil_append] at h
      rcases hrest '(' (by rw [h]; rfl) with hspace | hclose
      · exact nomatch hspace
      · exact nomatch hclose
  | cons c cs =>
      rw [hlabel] at h
      obtain ⟨rfl, -⟩ := List.cons.inj h
      exact ha '(' (hlabel ▸ List.mem_cons_self) (by simp [separators])

/-! ## Texts -/

theorem toList_text_inner (label : String) (child : Node) (children : List Node) :
    (node label (child :: children)).text.toList =
      '(' :: (label.toList ++ ((childrenText (child :: children)).toList ++ [')'])) := by
  simp [text]

theorem toList_childrenText_cons (child : Node) (children : List Node) :
    (childrenText (child :: children)).toList =
      ' ' :: (child.text.toList ++ (childrenText children).toList) := by
  simp [childrenText]

/-- Behind a child there is the next one or the end of the list. -/
theorem ends_childrenText (children : List Node) (rest : List Char) :
    Ends ((childrenText children).toList ++ ')' :: rest) := by
  cases children with
  | nil => exact ends_close rest
  | cons child children =>
      rw [toList_childrenText_cons]
      exact ends_space _

/-! ## Trees -/

/-- No label in the tree has a separator in it. -/
def Readable (n : Node) : Prop := ∀ e ∈ n.preorder, Unbroken e.1

theorem mem_preorderList {e : String × Nat} {children : List Node} :
    e ∈ preorderList children ↔ ∃ child ∈ children, e ∈ child.preorder := by
  induction children with
  | nil => simp [preorderList]
  | cons child children ih => simp [preorderList, ih]

theorem readable_node {label : String} {children : List Node} :
    (node label children).Readable ↔ Unbroken label ∧ ∀ child ∈ children, child.Readable := by
  simp only [Readable, preorder, List.forall_mem_cons, mem_preorderList]
  refine and_congr_right fun _ => ⟨?_, ?_⟩
  · intro h child hchild e he
    exact h e ⟨child, hchild, he⟩
  · rintro h e ⟨child, hchild, he⟩
    exact h child hchild e he

mutual

/-- A text that starts with a tree says which tree that is and what comes behind it. -/
theorem text_append_inj : ∀ (m n : Node) {rest rest' : List Char}, m.Readable → n.Readable →
    Ends rest → Ends rest' → m.text.toList ++ rest = n.text.toList ++ rest' →
      m = n ∧ rest = rest'
  | node a [], node b [], _, _, hm, hn, hrest, hrest', h => by
      obtain ⟨rfl, rfl⟩ := label_append_inj (readable_node.mp hm).1 (readable_node.mp hn).1
        hrest hrest' (by simpa only [text] using h)
      exact ⟨rfl, rfl⟩
  | node a [], node b (n :: ns), _, _, hm, _, hrest, _, h => by
      rw [toList_text_inner, text] at h
      exact absurd h (label_append_ne_open (readable_node.mp hm).1 hrest _)
  | node a (m :: ms), node b [], _, _, _, hn, _, hrest', h => by
      rw [toList_text_inner, text] at h
      exact absurd h.symm (label_append_ne_open (readable_node.mp hn).1 hrest' _)
  | node a (m :: ms), node b (n :: ns), _, _, hm, hn, _, _, h => by
      obtain ⟨ha, hms⟩ := readable_node.mp hm
      obtain ⟨hb, hns⟩ := readable_node.mp hn
      simp only [toList_text_inner, List.cons_append, List.append_assoc, List.nil_append,
        List.cons.injEq, true_and] at h
      -- the label ends at the space in front of the first child
      obtain ⟨hlabel, hbehind⟩ :=
        label_append_inj ha hb (ends_childrenText _ _) (ends_childrenText _ _) h
      obtain ⟨hchildren, hrest⟩ := childrenText_append_inj (m :: ms) (n :: ns) hms hns hbehind
      exact ⟨by rw [hlabel, hchildren], hrest⟩

/-- A text that starts with several trees and a closing parenthesis says which trees these are. -/
theorem childrenText_append_inj : ∀ (ms ns : List Node) {rest rest' : List Char},
    (∀ m ∈ ms, m.Readable) → (∀ n ∈ ns, n.Readable) →
    (childrenText ms).toList ++ ')' :: rest = (childrenText ns).toList ++ ')' :: rest' →
      ms = ns ∧ rest = rest'
  | [], [], _, _, _, _, h => ⟨rfl, (List.cons.inj h).2⟩
  | [], n :: ns, _, _, _, _, h => by
      rw [toList_childrenText_cons] at h
      exact nomatch (List.cons.inj h).1
  | m :: ms, [], _, _, _, _, h => by
      rw [toList_childrenText_cons] at h
      exact nomatch (List.cons.inj h).1
  | m :: ms, n :: ns, _, _, hms, hns, h => by
      obtain ⟨hm, hms'⟩ := List.forall_mem_cons.mp hms
      obtain ⟨hn, hns'⟩ := List.forall_mem_cons.mp hns
      simp only [toList_childrenText_cons, List.cons_append, List.append_assoc, List.cons.injEq,
        true_and] at h
      obtain ⟨hchild, hbehind⟩ :=
        text_append_inj m n hm hn (ends_childrenText _ _) (ends_childrenText _ _) h
      obtain ⟨hchildren, hrest⟩ := childrenText_append_inj ms ns hms' hns' hbehind
      exact ⟨by rw [hchild, hchildren], hrest⟩

end

/-- **The text of a tree determines the tree**, where no label has a space or a parenthesis in
it. -/
theorem eq_of_text_eq {m n : Node}
    (hm : ∀ e ∈ m.preorder, ∀ c ∈ e.1.toList, c ≠ ' ' ∧ c ≠ '(' ∧ c ≠ ')')
    (hn : ∀ e ∈ n.preorder, ∀ c ∈ e.1.toList, c ≠ ' ' ∧ c ≠ '(' ∧ c ≠ ')')
    (h : m.text = n.text) : m = n := by
  have hreadable {k : Node}
      (hk : ∀ e ∈ k.preorder, ∀ c ∈ e.1.toList, c ≠ ' ' ∧ c ≠ '(' ∧ c ≠ ')') :
      k.Readable := by
    intro e he c hc
    simpa [separators] using hk e he c hc
  exact (text_append_inj m n (hreadable hm) (hreadable hn) ends_nil ends_nil (by rw [h])).1

/-- The tree is given in preorder, where no parentheses are needed. -/
theorem eq_of_text_eq_preorder :
    ∃ m, ofPreorder? [("*", 2), ("+", 2), ("1", 0), ("2", 0), ("3", 0)] = some m ∧
      m.text = "(* (+ 1 2) 3)" ∧
      m = node "*" [node "+" [leaf "1", leaf "2"], leaf "3"] := by
  have hlabels : ∀ e ∈ (node "*" [node "+" [leaf "1", leaf "2"], leaf "3"]).preorder,
      ∀ c ∈ e.1.toList, c ≠ ' ' ∧ c ≠ '(' ∧ c ≠ ')' := by
    simp [preorder, preorderList, leaf]
  exact ⟨_, rfl, rfl, eq_of_text_eq hlabels hlabels rfl⟩

/-- A leaf can be labelled with the text of another tree. -/
example : (leaf "(f x)").text = (node "f" [leaf "x"]).text := rfl

end FrontEnd.Node
