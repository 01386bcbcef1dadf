import ScriptSyntax.Proofs.Printing
import ScriptSyntax.Proofs.Quoting
import ScriptSyntax.Render

/-! The parts of a rendered tree: words, quoted texts, names in brackets, and lists of parts in
parentheses. The text determines the parts, for no part has anything in it that could end it. -/
namespace ScriptSyntax

/-- A part of a rendered tree. The items of a broken list, a block, take a line each when the tree
is laid out. -/
inductive Shape where
  | word (text : String)
  | quoted (text : String)
  | names (xs : List String)
  | node (broken : Bool) (items : List Shape)

mutual
def Shape.render : Shape → String
  | .word text => text
  | .quoted text => Text.quoted text
  | .names xs => "[" ++ spaced xs ++ "]"
  | .node _ items => parenthesized (renderShapes items)
def renderShapes : List Shape → List String
  | [] => []
  | s :: ss => s.render :: renderShapes ss
end

theorem renderShapes_eq_map (ss : List Shape) : renderShapes ss = ss.map Shape.render := by
  induction ss with
  | nil => rfl
  | cons s ss ih => rw [renderShapes, ih, List.map_cons]

/-- Characters of words. -/
def isPlain (c : Char) : Bool := c ≠ ' ' && c ≠ '\n' && c ≠ '(' && c ≠ ')' && c ≠ '"'

/-- Whether a text is a word. Names in brackets are told from words by their beginning. -/
def isWord (text : String) : Bool := text.toList.head?.any (· ≠ '[') && text.toList.all isPlain

/-- Whether the items are those of a block. -/
def headsBlock : List Shape → Bool
  | .word text :: _ => text = "block"
  | _ => false

/-- Parts whose words are words, and in which the blocks are broken. No block has names in brackets
among its entries. -/
inductive Shape.Sound : Shape → Prop
  | word {text : String} (h : isWord text = true) : Sound (.word text)
  | quoted (text : String) : Sound (.quoted text)
  | names {xs : List String} (h : xs.all isName = true) : Sound (.names xs)
  | node {broken : Bool} {items : List Shape} (hbroken : broken = headsBlock items)
    (hentries : broken = true → ∀ xs, .names xs ∉ items) (hitems : ∀ s ∈ items, Sound s) :
    Sound (.node broken items)

/-! Words. -/

theorem exists_of_isName {x : String} (h : isName x = true) : ∃ c cs, isWordStart c = true ∧
    (∀ d ∈ cs, isWordPart d = true) ∧ x.toList = c :: cs := by
  rw [isName, Bool.and_eq_true, decide_eq_true_eq] at h
  exact Pattern.matches_word.1 (Pattern.matches_of_read? (p := .word) h.1)

theorem isWordPart_of_isName {x : String} (h : isName x = true) :
    ∀ c ∈ x.toList, isWordPart c = true := by
  obtain ⟨c, cs, hc, hcs, hx⟩ := exists_of_isName h
  rw [hx, List.forall_mem_cons]
  refine ⟨?_, hcs⟩
  rw [isWordStart, Bool.or_eq_true] at hc
  rw [isWordPart, Char.isAlphanum, Bool.or_eq_true, Bool.or_eq_true]
  exact hc.imp_left .inl

theorem isPlain_of_isWordPart {c : Char} (h : isWordPart c = true) : isPlain c = true := by
  have hne {d : Char} (hd : isWordPart d = false) : c ≠ d := by
    rintro rfl
    rw [hd] at h
    cases h
  simp only [isPlain, Bool.and_eq_true, decide_eq_true_eq]
  exact ⟨⟨⟨⟨hne rfl, hne rfl⟩, hne rfl⟩, hne rfl⟩, hne rfl⟩

theorem isWord_iff {text : String} : isWord text = true ↔
    ∃ c cs, text.toList = c :: cs ∧ c ≠ '[' ∧ ∀ d ∈ c :: cs, isPlain d = true := by
  rw [isWord, Bool.and_eq_true, List.all_eq_true]
  cases text.toList with
  | nil => simp
  | cons c cs =>
    constructor
    · rintro ⟨hc, hcs⟩
      exact ⟨c, cs, rfl, of_decide_eq_true hc, hcs⟩
    · rintro ⟨d, ds, hds, hd, hplain⟩
      obtain ⟨rfl, rfl⟩ := List.cons.inj hds
      exact ⟨decide_eq_true hd, hplain⟩

/-- What may stand behind a word. -/
def Ended (cs : List Char) : Prop := ∀ c ∈ cs.head?, isPlain c = false

theorem ended_nil : Ended [] := nofun

/-! Texts with spaces between them. -/

theorem spaced_cons (text : String) (texts : List String) : (spaced (text :: texts)).toList =
    text.toList ++ texts.flatMap fun next => ' ' :: next.toList := by
  induction texts generalizing text with
  | nil => rw [spaced, List.flatMap_nil, List.append_nil]
  | cons next texts ih =>
    rw [spaced, String.toList_append, String.toList_append, ih, List.flatMap_cons,
      List.append_assoc]
    rfl

/-- Names have no space in them, so the spaces before them tell where they end. -/
private theorem marked_inj {xs ys : List String} (hxs : ∀ x ∈ xs, isName x = true)
    (hys : ∀ y ∈ ys, isName y = true) (h : (xs.flatMap fun x => ' ' :: x.toList) =
      ys.flatMap fun y => ' ' :: y.toList) : xs = ys := by
  have hspace {x : String} (hx : isName x = true) : ∀ c ∈ x.toList, (c != ' ') = true := by
    intro c hc
    refine bne_iff_ne.2 ?_
    rintro rfl
    cases isWordPart_of_isName hx _ hc
  have hhead (zs : List String) :
      ∀ c ∈ (zs.flatMap fun z => ' ' :: z.toList).head?, (c != ' ') = false := by
    intro c hc
    cases zs with
    | nil => cases hc
    | cons z zs =>
      obtain rfl := Option.some.inj hc
      rfl
  induction xs generalizing ys with
  | nil =>
    cases ys with
    | nil => rfl
    | cons y ys => cases h
  | cons x xs ih =>
    cases ys with
    | nil => cases h
    | cons y ys =>
      obtain ⟨hx, hxs⟩ := List.forall_mem_cons.1 hxs
      obtain ⟨hy, hys⟩ := List.forall_mem_cons.1 hys
      obtain ⟨hsame, hrest⟩ :=
        run_append_inj (hspace hx) (hspace hy) (hhead xs) (hhead ys) (List.cons.inj h).2
      rw [String.toList_inj.1 hsame, ih hxs hys hrest]

theorem spaced_inj {xs ys : List String} (hxs : ∀ x ∈ xs, isName x = true)
    (hys : ∀ y ∈ ys, isName y = true) (h : spaced xs = spaced ys) : xs = ys := by
  have hempty {x : String} (hx : isName x = true) (zs : List String) :
      spaced [] ≠ spaced (x :: zs) := by
    obtain ⟨c, cs, -, -, hcs⟩ := exists_of_isName hx
    intro h
    have hchars := congrArg String.toList h
    rw [spaced_cons, hcs] at hchars
    cases hchars
  cases xs with
  | nil =>
    cases ys with
    | nil => rfl
    | cons y ys => exact absurd h (hempty (hys y List.mem_cons_self) ys)
  | cons x xs =>
    cases ys with
    | nil => exact absurd h.symm (hempty (hxs x List.mem_cons_self) xs)
    | cons y ys =>
      have hchars := congrArg (fun text => ' ' :: text.toList) h
      simp only [spaced_cons] at hchars
      exact marked_inj hxs hys hchars

/-- Names with spaces between them hold nothing that is neither in a name nor a space. -/
theorem ne_of_mem_spaced {xs : List String} (h : ∀ x ∈ xs, isName x = true) {d : Char}
    (hpart : isWordPart d = false) (hspace : d ≠ ' ') : ∀ c ∈ (spaced xs).toList, c ≠ d := by
  intro c hc
  have hname {x : String} (hx : x ∈ xs) (hcx : c ∈ x.toList) : c ≠ d := by
    rintro rfl
    rw [isWordPart_of_isName (h x hx) c hcx] at hpart
    cases hpart
  cases xs with
  | nil => cases hc
  | cons x xs =>
    rw [spaced_cons, List.mem_append, List.mem_flatMap] at hc
    rcases hc with hcx | ⟨y, hy, hcy⟩
    · exact hname List.mem_cons_self hcx
    · rcases List.mem_cons.1 hcy with rfl | hcy
      · exact hspace.symm
      · exact hname (List.mem_cons_of_mem _ hy) hcy

namespace Shape
variable {s s' : Shape} {ss : List Shape} {us vs : List Char}

/-! Texts of parts. -/

def text (s : Shape) : List Char := s.render.toList

/-- The rest of a list whose first items are written. -/
def closing (ss : List Shape) : List Char := (ss.flatMap fun s => ' ' :: s.text) ++ [')']

@[simp] theorem text_word (text : String) : (word text).text = text.toList := by
  rw [Shape.text, render]

@[simp] theorem text_quoted (text : String) : (quoted text).text = (Text.quoted text).toList := by
  rw [Shape.text, render]

@[simp] theorem text_names_append (xs : List String) (us : List Char) :
    (names xs).text ++ us = '[' :: ((spaced xs).toList ++ ']' :: us) := by
  rw [text, render, String.toList_append, String.toList_append]
  simp

@[simp] theorem closing_nil_append (us : List Char) : closing [] ++ us = ')' :: us := rfl

@[simp] theorem closing_cons_append (s : Shape) (ss : List Shape) (us : List Char) :
    closing (s :: ss) ++ us = ' ' :: (s.text ++ (closing ss ++ us)) := by
  simp only [closing, List.flatMap_cons, List.append_assoc, List.cons_append]

@[simp] theorem text_node_nil_append (broken : Bool) (us : List Char) :
    (node broken []).text ++ us = '(' :: ')' :: us := by
  rw [text, render]
  rfl

@[simp] theorem text_node_cons_append (broken : Bool) (s : Shape) (ss : List Shape)
    (us : List Char) :
    (node broken (s :: ss)).text ++ us = '(' :: (s.text ++ (closing ss ++ us)) := by
  have hrest : (ss.map render).flatMap (fun next => ' ' :: next.toList) =
      ss.flatMap fun s => ' ' :: s.text := List.flatMap_map _ _ _
  rw [text, render, parenthesized, renderShapes, renderShapes_eq_map, String.toList_append,
    String.toList_append, spaced_cons, hrest, closing]
  simp only [List.append_assoc]
  rfl

theorem ended_closing (ss : List Shape) (us : List Char) : Ended (closing ss ++ us) := by
  intro c hc
  cases ss with
  | nil =>
    obtain rfl := Option.some.inj hc
    rfl
  | cons s ss =>
    rw [closing_cons_append] at hc
    obtain rfl := Option.some.inj hc
    rfl

/-! Reading the parts off the text. -/

/-- Whether a character begins a part of a kind. -/
def begins (c : Char) : Shape → Prop
  | word _ => c ≠ '[' ∧ isPlain c = true
  | quoted _ => c = '"'
  | names _ => c = '['
  | node _ _ => c = '('

theorem Sound.exists_cons (h : s.Sound) (us : List Char) :
    ∃ c cs, s.text ++ us = c :: cs ∧ s.begins c := by
  cases h with
  | word h =>
    obtain ⟨c, cs, hcs, hc, hplain⟩ := isWord_iff.1 h
    exact ⟨c, cs ++ us, by rw [text_word, hcs, List.cons_append], hc, hplain c List.mem_cons_self⟩
  | quoted text => exact ⟨_, _, by rw [text_quoted, Text.toList_quoted, List.cons_append], rfl⟩
  | @names xs _ => exact ⟨_, _, text_names_append xs us, rfl⟩
  | @node broken items _ _ =>
    cases items with
    | nil => exact ⟨_, _, text_node_nil_append broken us, rfl⟩
    | cons s ss => exact ⟨_, _, text_node_cons_append broken s ss us, rfl⟩

/-- Parts whose texts have a beginning in common begin with the same character. -/
theorem Sound.begin_together (h : s.Sound) (h' : s'.Sound) (heq : s.text ++ us = s'.text ++ vs) :
    ∃ c, s.begins c ∧ s'.begins c := by
  obtain ⟨c, cs, hs, hc⟩ := h.exists_cons us
  obtain ⟨d, ds, hs', hd⟩ := h'.exists_cons vs
  rw [hs, hs'] at heq
  obtain rfl : c = d := (List.cons.inj heq).1
  exact ⟨c, hc, hd⟩

/-- No list ends where a part begins. -/
theorem Sound.ne_close (h : s.Sound) : s.text ++ us ≠ ')' :: vs := by
  intro heq
  obtain ⟨c, cs, hs, hc⟩ := h.exists_cons us
  rw [hs] at heq
  obtain rfl : c = ')' := (List.cons.inj heq).1
  cases s with
  | word => cases hc.2
  | _ => cases hc

/-- A part that can be told from what ends it. -/
def Distinct (s : Shape) : Prop := ∀ ⦃s' us vs⦄, s'.Sound → Ended us → Ended vs →
  s.text ++ us = s'.text ++ vs → s = s' ∧ us = vs

theorem closing_append_inj (h : ∀ s ∈ ss, s.Distinct) {ss' : List Shape}
    (h' : ∀ s ∈ ss', s.Sound) (heq : closing ss ++ us = closing ss' ++ vs) :
    ss = ss' ∧ us = vs := by
  induction ss generalizing ss' with
  | nil =>
    cases ss' with
    | nil => exact ⟨rfl, (List.cons.inj heq).2⟩
    | cons s ss => cases (List.cons.inj heq).1
  | cons s ss ih =>
    cases ss' with
    | nil => cases (List.cons.inj heq).1
    | cons s' ss' =>
      rw [closing_cons_append, closing_cons_append] at heq
      obtain ⟨rfl, hrest⟩ := h s List.mem_cons_self (h' s' List.mem_cons_self)
        (ended_closing ss us) (ended_closing ss' vs) (List.cons.inj heq).2
      obtain ⟨rfl, hend⟩ := ih (fun s hs => h s (List.mem_cons_of_mem _ hs))
        (fun s hs => h' s (List.mem_cons_of_mem _ hs)) hrest
      exact ⟨rfl, hend⟩

theorem node_append_inj {broken broken' : Bool} (h : ∀ s ∈ ss, s.Sound ∧ s.Distinct)
    {ss' : List Shape} (h' : ∀ s ∈ ss', s.Sound)
    (heq : (node broken ss).text ++ us = (node broken' ss').text ++ vs) : ss = ss' ∧ us = vs := by
  cases ss with
  | nil =>
    rw [text_node_nil_append] at heq
    cases ss' with
    | nil =>
      rw [text_node_nil_append] at heq
      exact ⟨rfl, (List.cons.inj (List.cons.inj heq).2).2⟩
    | cons s' ss' =>
      rw [text_node_cons_append] at heq
      exact absurd (List.cons.inj heq).2.symm (h' s' List.mem_cons_self).ne_close
  | cons s ss =>
    rw [text_node_cons_append] at heq
    cases ss' with
    | nil =>
      rw [text_node_nil_append] at heq
      exact absurd (List.cons.inj heq).2 (h s List.mem_cons_self).1.ne_close
    | cons s' ss' =>
      rw [text_node_cons_append] at heq
      -- behind the parenthesis both texts go on as lists do behind an item
      have hclosing : closing (s :: ss) ++ us = closing (s' :: ss') ++ vs := by
        rw [closing_cons_append, closing_cons_append, (List.cons.inj heq).2]
      exact closing_append_inj (fun s hs => (h s hs).2) h' hclosing

/-- The text of a part determines the part, and where it ends. -/
theorem Sound.distinct (h : s.Sound) : s.Distinct := by
  -- the first character tells the kinds apart, so the other part is of the same kind
  induction h with
  | word hw =>
    intro s' us vs h' hus hvs heq
    obtain ⟨c, ⟨hc, hplain⟩, hc'⟩ := (Sound.word hw).begin_together h' heq
    cases h' with
    | word hw' =>
      rw [text_word, text_word] at heq
      obtain ⟨_, _, hcs, -, hword⟩ := isWord_iff.1 hw
      obtain ⟨_, _, hcs', -, hword'⟩ := isWord_iff.1 hw'
      obtain ⟨hsame, hend⟩ := run_append_inj (hcs ▸ hword) (hcs' ▸ hword') hus hvs heq
      exact ⟨congrArg Shape.word (String.toList_inj.1 hsame), hend⟩
    | names => exact absurd hc' hc
    | quoted =>
      obtain rfl : c = '"' := hc'
      cases hplain
    | node =>
      obtain rfl : c = '(' := hc'
      cases hplain
  | quoted text =>
    intro s' us vs h' _ _ heq
    obtain ⟨c, rfl, hc'⟩ := (Sound.quoted text).begin_together h' heq
    cases h' with
    | quoted text' =>
      rw [text_quoted, text_quoted] at heq
      obtain ⟨rfl, hend⟩ := Text.quoted_append_inj heq
      exact ⟨rfl, hend⟩
    | word => cases hc'.2
    | _ => cases hc'
  | @names xs hxs =>
    intro s' us vs h' _ _ heq
    obtain ⟨c, rfl, hc'⟩ := (Sound.names hxs).begin_together h' heq
    cases h' with
    | @names ys hys =>
      rw [List.all_eq_true] at hxs hys
      rw [text_names_append, text_names_append] at heq
      obtain ⟨hsame, hend⟩ := run_append_inj (p := (· != ']'))
        (fun c hc => bne_iff_ne.2 (ne_of_mem_spaced hxs rfl (by decide) c hc))
        (fun c hc => bne_iff_ne.2 (ne_of_mem_spaced hys rfl (by decide) c hc)) (by simp) (by simp)
        (List.cons.inj heq).2
      obtain rfl := spaced_inj hxs hys (String.toList_inj.1 hsame)
      exact ⟨rfl, (List.cons.inj hend).2⟩
    | word => exact absurd rfl hc'.1
    | _ => cases hc'
  | @node broken items hbroken hentries hitems ih =>
    intro s' us vs h' _ _ heq
    obtain ⟨c, rfl, hc'⟩ := (Sound.node hbroken hentries hitems).begin_together h' heq
    cases h' with
    | node hbroken' _ hitems' =>
      obtain ⟨rfl, hend⟩ := node_append_inj (fun s hs => ⟨hitems s hs, ih s hs⟩) hitems' heq
      rw [hbroken, hbroken']
      exact ⟨rfl, hend⟩
    | word => cases hc'.2
    | _ => cases hc'

theorem Sound.render_inj (h : s.Sound) (h' : s'.Sound) (heq : s.render = s'.render) : s = s' :=
  (h.distinct h' ended_nil ended_nil (by rw [text, heq, text])).1

end Shape
end ScriptSyntax
