import ScriptSyntax.Proofs.Language
import ScriptSyntax.Proofs.Nesting

/-! Lines that end in parentheses. A line may end there only where something is still to come, and
in front of a comma or a closing parenthesis; everywhere it may, it makes no difference. -/
namespace ScriptSyntax
variable {s : Site} {w : Terminal} {ws us vs : List Terminal}

/-- Whether lines may end in front of a terminal wherever it stands in parentheses. -/
def Terminal.endsLines : Terminal → Bool
  | newLine => true
  | symbol text => text ∈ [",", ")"]
  | _ => false

namespace Site

/-- Whether the innermost bracket is a parenthesis. -/
def inParens (s : Site) : Bool := s.enclosing.head?.any (· ≠ .brace)

/-- Whether a line may end between a place in parentheses and the next word. -/
def allows (s : Site) (w : Terminal) : Bool := s.inParens && (s.lineEnd || w.endsLines)

theorem inParens_congr {t : Site} (h : t.enclosing = s.enclosing) : t.inParens = s.inParens := by
  rw [inParens, inParens, h]

theorem allows_of_lineEnd (h : s.lineEnd = false) (hw : w.endsLines = false) :
    s.allows w = false := by
  rw [allows, h, hw, Bool.or_false, Bool.and_false]

theorem allows_of_inParens (h : s.inParens = false) (w : Terminal) : s.allows w = false := by
  rw [allows, h, Bool.false_and]

end Site

/-- Words none of which lets a line end in front of it or behind it. -/
def Flat (ws : List Terminal) : Prop :=
  ∀ w ∈ ws, w.endsLines = false ∧ ∀ s : Site, (s.past w).lineEnd = false

theorem Flat.append (h : Flat ws) (h' : Flat vs) : Flat (ws ++ vs) :=
  List.forall_mem_append.2 ⟨h, h'⟩

theorem Flat.lineEnd (h : Flat ws) (hs : s.lineEnd = false) : (s.after ws).lineEnd = false := by
  induction ws generalizing s with
  | nil => exact hs
  | cons w ws ih =>
    obtain ⟨⟨-, hw⟩, hws⟩ := List.forall_mem_cons.1 h
    exact ih hws (hw s)

theorem TypeText.flat {t : TypeExpr} (h : TypeText t ws) : Flat ws := by
  induction h with
  | named x p => exact List.forall_mem_singleton.2 ⟨rfl, fun _ => rfl⟩
  | array _ ih =>
    exact ih.append (List.forall_mem_cons.2 ⟨⟨rfl, fun _ => Bool.and_false _⟩,
      List.forall_mem_singleton.2 ⟨rfl, fun _ => Bool.and_false _⟩⟩)

theorem Annotation.flat {symbol : String} {t : TypeExpr} (hs : symbol ∈ [":", "->"])
    (h : Annotation symbol t ws) : Flat ws := by
  cases h with
  | absent => exact List.forall_mem_nil _
  | present ht =>
    refine List.forall_mem_cons.2 ⟨?_, ht.flat⟩
    rcases List.mem_cons.1 hs with rfl | hs
    · exact ⟨rfl, fun s => Bool.and_false _⟩
    · rw [List.mem_singleton.1 hs]
      exact ⟨rfl, fun s => Bool.and_false _⟩

theorem flat_superclassText (superclass : Option String) : Flat (superclassText superclass) := by
  cases superclass with
  | none => exact List.forall_mem_nil _
  | some x =>
    exact List.forall_mem_cons.2
      ⟨⟨rfl, fun _ => Bool.and_false _⟩, List.forall_mem_singleton.2 ⟨rfl, fun _ => rfl⟩⟩

theorem flat_property (x : String) : Flat [.symbol ".", .name x] :=
  List.forall_mem_cons.2
    ⟨⟨rfl, fun _ => Bool.and_false _⟩, List.forall_mem_singleton.2 ⟨rfl, fun _ => rfl⟩⟩

/-! More ends of lines than there are. -/

/-- The words with more ends of lines in front of each, where these are allowed. -/
inductive Stretches : Site → List Terminal → List Terminal → Prop
  | nil (s : Site) : Stretches s [] []
  | cons {s : Site} {w : Terminal} {nl ws vs : List Terminal} : EmptyLines nl →
    (nl ≠ [] → s.allows w) → Stretches (s.past w) ws vs → Stretches s (w :: ws) (nl ++ w :: vs)

namespace Stretches

theorem refl (s : Site) (ws : List Terminal) : Stretches s ws ws := by
  induction ws generalizing s with
  | nil => exact .nil s
  | cons w ws ih => exact .cons emptyLines_nil (absurd rfl) (ih _)

/-- One more end of a line. -/
theorem one (h : (s.after us).allows w) (ws : List Terminal) :
    Stretches s (us ++ w :: ws) (us ++ .newLine :: w :: ws) := by
  induction us generalizing s with
  | nil => exact .cons emptyLines_nil.newLine (fun _ => h) (.refl _ ws)
  | cons u us ih => exact .cons emptyLines_nil (absurd rfl) (ih h)

theorem split (h : Stretches s (ws ++ us) vs) :
    ∃ vs₁ vs₂, vs = vs₁ ++ vs₂ ∧ Stretches s ws vs₁ ∧ Stretches (s.after ws) us vs₂ := by
  induction ws generalizing s vs with
  | nil => exact ⟨[], vs, rfl, .nil s, h⟩
  | cons w ws ih =>
    cases h with
    | cons hnl hallows hrest =>
      obtain ⟨vs₁, vs₂, rfl, h₁, h₂⟩ := ih hrest
      exact ⟨_, vs₂, by simp, .cons hnl hallows h₁, h₂⟩

theorem emptyLines (h : Stretches s ws vs) (hws : EmptyLines ws) : EmptyLines vs := by
  induction h with
  | nil => exact emptyLines_nil
  | cons hnl _ _ ih =>
    obtain ⟨rfl, hrest⟩ := List.forall_mem_cons.1 hws
    exact hnl.append (ih hrest).newLine

/-- In front of a word no line ends that is not allowed to. -/
theorem tight (h : Stretches s (w :: ws) vs) (hw : s.allows w = false) :
    ∃ us, vs = w :: us ∧ Stretches (s.past w) ws us := by
  cases h with
  | @cons _ _ nl _ us _ hallows hrest =>
    cases nl with
    | nil => exact ⟨us, rfl, hrest⟩
    | cons _ _ => rw [hallows (List.cons_ne_nil _ _)] at hw; cases hw

theorem head_of_inParens (h : Stretches s ws vs) (hs : s.inParens = false) :
    vs.head? = ws.head? := by
  cases ws with
  | nil =>
    cases h
    rfl
  | cons w ws =>
    obtain ⟨us, rfl, -⟩ := h.tight (s.allows_of_inParens hs w)
    rfl

/-- In front of a word that follows ends of lines there may be more of them. -/
theorem lines {nl : List Terminal} (h : Stretches s (nl ++ w :: ws) vs) (hnl : EmptyLines nl) :
    ∃ nl' us, vs = nl' ++ w :: us ∧ EmptyLines nl' ∧ Stretches ((s.after nl).past w) ws us := by
  obtain ⟨vs₁, _, rfl, h₁, h₂⟩ := h.split
  cases h₂ with
  | cons hmore _ hrest =>
    exact ⟨_, _, (List.append_assoc _ _ _).symm, (h₁.emptyLines hnl).append hmore, hrest⟩

theorem flat (h : Stretches s ws vs) (hs : s.lineEnd = false) (hws : Flat ws) : vs = ws := by
  induction ws generalizing s vs with
  | nil =>
    cases h
    rfl
  | cons w ws ih =>
    obtain ⟨⟨hw, hpast⟩, hws⟩ := List.forall_mem_cons.1 hws
    obtain ⟨us, rfl, hus⟩ := h.tight (Site.allows_of_lineEnd hs hw)
    rw [ih hus (hpast s) hws]

/-- Outside of parentheses nothing changes. -/
theorem level (h : Stretches s ws vs) (hs : s.inParens = false) (hws : Level ws) : vs = ws := by
  induction ws generalizing s vs with
  | nil =>
    cases h
    rfl
  | cons w ws ih =>
    obtain ⟨hw, hws⟩ := List.forall_mem_cons.1 hws
    obtain ⟨us, rfl, hus⟩ := h.tight (s.allows_of_inParens hs w)
    rw [ih hus ((Site.inParens_congr (hw s)).trans hs) hws]

end Stretches

/-! What is the same with more ends of lines. -/

/-- The place does not take a minus in front of an operand for one between operands. -/
def Site.Ready (s : Site) (ws : List Terminal) : Prop :=
  s.inParens → s.operand → ws.head? ≠ some (.symbol "-")

theorem Site.Ready.of_operand (h : s.operand = false) : s.Ready ws := fun _ hop => by
  rw [h] at hop
  cases hop

theorem Site.Ready.of_inParens (h : s.inParens = false) : s.Ready ws := fun hin => by
  rw [h] at hin
  cases hin

theorem Site.Ready.left (h : s.Ready (ws ++ us)) : s.Ready ws := fun hin hop hws =>
  h hin hop (by rw [List.head?_append, hws, Option.some_or])

/-- With more ends of lines the words have a property, apart from those that end in front. -/
def Survives (P : List Terminal → Prop) (ws : List Terminal) : Prop :=
  ∀ s vs, s.Ready ws → Stretches s ws vs → ∃ nl us, vs = nl ++ us ∧ EmptyLines nl ∧
    (nl ≠ [] → s.inParens ∧ s.lineEnd) ∧ us.head? = ws.head? ∧ P us

section Survives
variable {P Q : List Terminal → Prop} {nl : List Terminal}

/-- Words with a first one of their own. -/
theorem Survives.of_first (hw : w.endsLines = false)
    (h : ∀ (s : Site) vs, s.Ready (w :: ws) → Stretches (s.past w) ws vs → P (w :: vs)) :
    Survives P (w :: ws) := by
  intro s vs hs hst
  cases hst with
  | cons hnl hallows hrest =>
    refine ⟨_, _, rfl, hnl, fun hne => ?_, rfl, h s _ hs hrest⟩
    have hs := hallows hne
    rwa [Site.allows, hw, Bool.or_false, Bool.and_eq_true] at hs

/-- Words that begin with a part. -/
theorem Survives.append (h : Survives P ws) (hne : ws ≠ [])
    (hq : ∀ (s : Site) ws' vs, P ws' → Stretches (s.after ws) us vs → Q (ws' ++ vs)) :
    Survives Q (ws ++ us) := by
  intro s vs hs hst
  obtain ⟨_, vs₂, rfl, h₁, h₂⟩ := hst.split
  obtain ⟨nl, ws', rfl, hnl, hallows, hhead, hp⟩ := h s _ hs.left h₁
  refine ⟨nl, ws' ++ vs₂, by simp, hnl, hallows, ?_, hq s ws' vs₂ hp h₂⟩
  obtain ⟨w, ws, rfl⟩ := List.exists_cons_of_ne_nil hne
  rw [List.head?_append, hhead]
  rfl

theorem Survives.mono (h : Survives P ws) (hpq : ∀ us, us.head? = ws.head? → P us → Q us) :
    Survives Q ws := by
  intro s vs hs hst
  obtain ⟨nl, us, rfl, hnl, hallows, hhead, hp⟩ := h s vs hs hst
  exact ⟨nl, us, rfl, hnl, hallows, hhead, hpq us hhead hp⟩

/-- Where no line may end in front of the words, all of them keep the property. -/
theorem Survives.tight (h : Survives P ws) (hs : s.Ready ws)
    (hline : s.lineEnd = false ∨ s.inParens = false) (hst : Stretches s ws vs) : P vs := by
  obtain ⟨nl, us, rfl, -, hallows, -, hp⟩ := h s vs hs hst
  cases nl with
  | nil => exact hp
  | cons _ _ =>
    obtain ⟨hin, hend⟩ := hallows (List.cons_ne_nil _ _)
    rcases hline with hline | hline
    · rw [hline] at hend
      cases hend
    · rw [hline] at hin
      cases hin

/-- Where lines may end in front of the words anyway, they take the additional ones. -/
theorem Survives.lines (h : Survives P ws) (hs : s.operand = false) (hnl : EmptyLines nl)
    (hst : Stretches s (nl ++ ws) vs) :
    ∃ nl' ws', vs = nl' ++ ws' ∧ EmptyLines nl' ∧ P ws' := by
  obtain ⟨nl₁, _, rfl, h₁, h₂⟩ := hst.split
  have hready : (s.after nl).Ready ws := .of_operand (Site.operand_after_lines hnl hs)
  obtain ⟨nl₂, ws', rfl, hmore, -, -, hp⟩ := h _ _ hready h₂
  exact ⟨nl₁ ++ nl₂, ws', by simp, (h₁.emptyLines hnl).append hmore, hp⟩

/-- Words in front of others, where no line may end in front of them. -/
theorem Survives.split_tight (h : Survives P ws) (hs : s.Ready ws)
    (hline : s.lineEnd = false ∨ s.inParens = false) (hst : Stretches s (ws ++ us) vs) :
    ∃ ws' us', vs = ws' ++ us' ∧ P ws' ∧ Stretches (s.after ws) us us' := by
  obtain ⟨ws', us', rfl, h₁, h₂⟩ := hst.split
  exact ⟨ws', us', rfl, h.tight hs hline h₁, h₂⟩

/-- An operator with its operands. -/
theorem Survives.operator {operator : String} (hop : operator ∈ infixOperators)
    (hl : Survives P ws) (hends : EndsOperand ws) (hne : ws ≠ []) (hnl : EmptyLines nl)
    (hr : Survives Q us) :
    Survives (fun vs => ∃ ws' nl' us', vs = ws' ++ .symbol operator :: (nl' ++ us') ∧ P ws' ∧
      EmptyLines nl' ∧ Q us') (ws ++ .symbol operator :: (nl ++ us)) := by
  have hplain : ∀ operator ∈ infixOperators, (Terminal.symbol operator).endsLines = false := by
    decide
  refine hl.append hne fun s ws' vs hp hst => ?_
  rw [hends] at hst
  obtain ⟨vs, rfl, hright⟩ := hst.tight (Site.allows_of_lineEnd rfl (hplain operator hop))
  rw [s.behind.past_operator hop] at hright
  obtain ⟨nl', us', rfl, hnl', hq⟩ := hr.lines rfl hnl hright
  exact ⟨ws', nl', us', rfl, hp, hnl', hq⟩

end Survives

/-! Layouts. -/
section Layouts
variable {α : Type} {spells : List Terminal → α → Prop} {values : List α}

/-- Ends of lines in front of a list belong to what stands before it. -/
theorem Items.listed_survives
    (h : Items (fun us a => Survives (spells · a) us) Listed ws values) :
    ∀ (s : Site) vs, s.operand = false → Stretches s ws vs →
      ∃ nl us, vs = nl ++ us ∧ EmptyLines nl ∧ Items spells Listed us values := by
  refine Items.listed_induction ?_ ?_ ?_ h
  · intro s vs _ hst
    cases hst
    exact ⟨[], [], rfl, emptyLines_nil, .nil .nil⟩
  · intro us a nl ha hnl s vs hs hst
    obtain ⟨_, nl', rfl, h₁, h₂⟩ := hst.split
    obtain ⟨front, us', rfl, hfront, -, -, ha⟩ := ha s _ (.of_operand hs) h₁
    exact ⟨front, us' ++ nl', by simp, hfront, .one ha (.last _ (h₂.emptyLines hnl))⟩
  · intro us a nl nl' ws values ha hnl hnl' _ ih s vs hs hst
    obtain ⟨_, _, rfl, h₁, h₂⟩ := hst.split
    obtain ⟨front, us', rfl, hfront, -, -, ha⟩ := ha s _ (.of_operand hs) h₁
    obtain ⟨before, _, rfl, hbefore, h₃⟩ := h₂.lines hnl
    obtain ⟨behind, _, rfl, h₄, h₅⟩ := h₃.split
    obtain ⟨more, rest, rfl, hmore, hrest⟩ := ih _ _ (Site.operand_after_lines hnl' rfl) h₅
    refine ⟨front, us' ++ (before ++ .symbol "," :: ((behind ++ more) ++ rest)), by simp, hfront,
      .cons ha hrest fun _ hp => ?_⟩
    exact .cons us' hbefore ((h₄.emptyLines hnl').append hmore) hp

/-- Ends of lines behind a list belong to it, unless there is nothing in it. -/
theorem Items.listed_lines (h : Items spells Listed ws values) {nl : List Terminal}
    (hnl : EmptyLines nl) :
    ∃ nl' us, ws ++ nl = nl' ++ us ∧ EmptyLines nl' ∧ Items spells Listed us values := by
  refine Items.listed_induction ?_ ?_ ?_ h
  · exact ⟨nl, [], by simp, hnl, .nil .nil⟩
  · intro us a nl' ha hnl'
    exact ⟨[], _, by simp, emptyLines_nil, .one ha (.last _ (hnl'.append hnl))⟩
  · intro us a before behind ws values ha hbefore hbehind _ ih
    obtain ⟨more, rest, hws, hmore, hrest⟩ := ih
    refine ⟨[], us ++ (before ++ .symbol "," :: ((behind ++ more) ++ rest)), ?_, emptyLines_nil,
      .cons ha hrest fun _ hp => .cons us hbefore (hbehind.append hmore) hp⟩
    simp [hws]

theorem Items.parenthesized_survives
    (h : Items (fun us a => Survives (spells · a) us) Parenthesized ws values) :
    Survives (Items spells Parenthesized · values) ws := by
  obtain ⟨items, rfl, hitems, hws⟩ := h
  generalize hpieces : items.map (·.2) = pieces at hws
  cases hws with
  | @intro nl us hnl hus =>
    subst hpieces
    refine .of_first rfl fun s vs _ hst => ?_
    obtain ⟨nl', _, rfl, h₁, h₂⟩ := hst.split
    obtain ⟨_, _, rfl, h₃, h₄⟩ := h₂.split
    obtain ⟨more, us', rfl, hmore, hvalues⟩ :=
      Items.listed_survives ⟨items, rfl, hitems, hus⟩ _ _ (Site.operand_after_lines hnl rfl) h₃
    obtain ⟨before, _, rfl, hbefore, hend⟩ := h₄.lines emptyLines_nil
    cases hend
    obtain ⟨first, us, hus', hfirst, items', hvalues, hitems', hlisted⟩ :=
      Items.listed_lines hvalues hbefore
    have hlines := ((h₁.emptyLines hnl).append hmore).append hfirst
    have hwords := congrArg (· ++ [Terminal.symbol ")"]) hus'
    simp only [List.append_assoc] at hwords
    refine ⟨items', hvalues, hitems', ?_⟩
    have hparens := Parenthesized.intro hlines hlisted
    simpa [← hwords] using hparens

/-- Statements stand on lines, where more ends of lines are not counted as such. -/
theorem Items.onLines_survives
    (h : Items (fun us a => Survives (spells · a) us ∧ Keeps us) OnLines ws values) :
    ∀ (s : Site) vs, s.inParens = false → Stretches s ws vs → Items spells OnLines vs values := by
  refine Items.lines_induction ?_ ?_ ?_ ?_ h
  · intro s vs _ hst
    cases hst
    exact .nil (.none emptyLines_nil)
  · intro ws values ih s vs hs hst
    obtain ⟨us, rfl, hus⟩ := hst.tight (s.allows_of_inParens hs _)
    exact (ih (s.past .newLine) us hs hus).mono fun _ => OnLines.newLine
  · intro us a ha s vs hs hst
    exact .one (ha.1.tight (.of_inParens hs) (.inr hs) hst) (.last _)
  · intro us a ws values ha ih s vs hs hst
    obtain ⟨us', _, rfl, h₁, h₂⟩ := hst.split
    have hafter : (s.after us).inParens = false := (Site.inParens_congr (ha.2 s)).trans hs
    obtain ⟨ws', rfl, hws'⟩ := h₂.tight (Site.allows_of_inParens hafter _)
    exact .cons (ha.1.tight (.of_inParens hs) (.inr hs) h₁)
      (ih ((s.after us).past .newLine) ws' hafter hws') fun _ => OnLines.cons _

theorem Loosely.survives {fits : Statement → List Terminal → Prop}
    (hfits : ∀ st ws vs, ws.head? = vs.head? → fits st ws → fits st vs)
    {items : List (Statement × List Terminal)} (h : Loosely fits items ws)
    (hitems : ∀ i ∈ items, Survives (Derives fits (.statement i.1)) i.2 ∧ Keeps i.2)
    (hs : s.inParens = false) (hst : Stretches s ws vs) :
    ∃ items' : List (Statement × List Terminal), items'.map (·.1) = items.map (·.1) ∧
      (∀ i ∈ items', Derives fits (.statement i.1) i.2) ∧ Loosely fits items' vs := by
  induction h generalizing s vs with
  | nil hnl => exact ⟨[], rfl, by simp, .nil (hst.emptyLines hnl)⟩
  | @cons us nl rest st items hnl hfit _ ih =>
    obtain ⟨⟨hus, hkeeps⟩, hitems⟩ := List.forall_mem_cons.1 hitems
    obtain ⟨nl', _, rfl, h₁, h₂⟩ := hst.split
    obtain ⟨us', rest', rfl, h₃, h₄⟩ := h₂.split
    have hlines : (s.after nl).inParens = false := (Site.inParens_congr (hnl.keeps s)).trans hs
    have hafter : ((s.after nl).after us).inParens = false :=
      (Site.inParens_congr (hkeeps _)).trans hlines
    obtain ⟨items', hmap, hitems', hloosely⟩ := ih hitems hafter h₄
    refine ⟨(st, us') :: items', by simp [hmap], List.forall_mem_cons.2 ⟨?_, hitems'⟩, ?_⟩
    · exact hus.tight (.of_inParens hlines) (.inr hlines) h₃
    · have hhead := (h₄.head_of_inParens hafter).symm
      exact .cons us' (h₁.emptyLines hnl) (hfits st rest rest' hhead hfit) hloosely

end Layouts

/-! What is derived. -/

theorem ParameterText.survives {p : Parameter} (h : ParameterText p ws) :
    Survives (ParameterText p) ws := by
  cases h with
  | intro x ht =>
    refine .of_first rfl fun s vs _ hst => ?_
    rw [hst.flat rfl (ht.flat (by decide))]
    exact .intro x ht

theorem SignatureText.survives {signature : Signature} (h : SignatureText signature ws) :
    Survives (SignatureText signature) ws := by
  cases h with
  | @intro items result ws vs hitems hws hresult =>
    have hparameters : Items (fun us p => Survives (ParameterText p) us) Parenthesized ws
        (items.map (·.1)) := ⟨items, rfl, fun i hi => (hitems i hi).survives, hws⟩
    have hkeeps := hws.endsOperand (List.forall_mem_map.2 fun i hi => (hitems i hi).keeps)
    have hne : ws ≠ [] := by
      cases hws
      exact List.cons_ne_nil _ _
    refine Survives.append (Items.parenthesized_survives hparameters) hne ?_
    rintro s ws' vs' ⟨items', hvalues, hitems', hws'⟩ hst
    rw [hkeeps] at hst
    rw [hst.flat rfl (hresult.flat (by decide)), hvalues]
    exact .intro hitems' hws' hresult

section Derives
variable {fits : Statement → List Terminal → Prop} {p : Phrase}

theorem Derives.ne_nil (h : Derives fits p ws) : ws ≠ [] := by
  obtain ⟨w, us, rfl, -⟩ := h.begins
  exact List.cons_ne_nil _ _

theorem Derives.ready_block {body : Block} (h : Derives fits (.block body) ws) (s : Site) :
    s.Ready ws := by
  obtain ⟨w, us, rfl, rfl⟩ := h.begins
  exact fun _ _ => by simp

theorem Parenthesized.ready {pieces : List (List Terminal)} (h : Parenthesized pieces ws)
    (s : Site) : s.Ready ws := by
  cases h
  exact fun _ _ => by simp

theorem SignatureText.lineEnd {signature : Signature} (h : SignatureText signature ws) (s : Site) :
    (s.after ws).lineEnd = false := by
  cases h with
  | @intro items result ws vs hitems hws hresult =>
    rw [Site.after_append]
    refine (hresult.flat (by decide)).lineEnd ?_
    rw [hws.endsOperand (List.forall_mem_map.2 fun i hi => (hitems i hi).keeps)]
    rfl

theorem SignatureText.ready {signature : Signature} (h : SignatureText signature ws) (s : Site) :
    s.Ready ws := by
  cases h with
  | intro _ hws _ =>
    cases hws
    exact fun _ _ => by simp

theorem Site.past_prefix {operator : String} (h : operator ∈ ["-", "!"])
    (hs : s.Ready (.symbol operator :: ws)) :
    (s.past (.symbol operator)).operand = false ∧
      ((s.past (.symbol operator)).lineEnd = false ∨
        (s.past (.symbol operator)).inParens = false) := by
  have hplain : ∀ operator ∈ ["-", "!"], operator ∉ ["(", "\x7b", ")", "\x7d", ","] := by decide
  rw [s.past_symbol (hplain operator h)]
  refine ⟨rfl, ?_⟩
  cases hin : s.inParens with
  | false => exact .inr hin
  | true =>
    refine .inl ?_
    rcases List.mem_cons.1 h with rfl | h
    · cases hop : s.operand with
      | false => rfl
      | true => exact absurd rfl (hs hin hop)
    · rw [List.mem_singleton.1 h]
      exact Bool.and_false _

theorem Derives.survives (hfits : ∀ st ws vs, ws.head? = vs.head? → fits st ws → fits st vs)
    (h : Derives fits p ws) : Survives (Derives fits p) ws := by
  induction h with
  | number text span =>
    refine .of_first rfl fun s vs _ hst => ?_
    cases hst
    exact .number text span
  | string value span =>
    refine .of_first rfl fun s vs _ hst => ?_
    cases hst
    exact .string value span
  | name x span =>
    refine .of_first rfl fun s vs _ hst => ?_
    cases hst
    exact .name x span
  | @grouping e nl ws nl' hnl _ hnl' ih =>
    refine .of_first rfl fun s vs _ hst => ?_
    rw [← List.append_assoc] at hst
    obtain ⟨_, _, rfl, h₁, h₂⟩ := hst.split
    obtain ⟨before, ws', rfl, hbefore, hws'⟩ := ih.lines rfl hnl h₁
    obtain ⟨behind, _, rfl, hbehind, hend⟩ := h₂.lines hnl'
    cases hend
    rw [List.append_assoc]
    exact .grouping hbefore hws' hbehind
  | closure span hsig hbody ih =>
    refine .of_first rfl fun s vs _ hst => ?_
    obtain ⟨ws', vs', rfl, hsig', hst⟩ :=
      hsig.survives.split_tight (hsig.ready _) (.inl rfl) hst
    exact .closure span hsig' (ih.tight (hbody.ready_block _) (.inl (hsig.lineEnd _)) hst)
  | @call callee items ws vs span hcallee _ hvs ih iha =>
    refine ih.append hcallee.ne_nil fun s ws' vs' hws' hst => ?_
    have hcallee : EndsOperand ws := hcallee.nests
    rw [hcallee] at hst
    have harguments : Items (fun us a => Survives (Derives fits (.expr .expr a)) us)
        Parenthesized vs (items.map (·.1)) := ⟨items, rfl, iha, hvs⟩
    obtain ⟨items', hvalues, hitems', hvs'⟩ :=
      (Items.parenthesized_survives harguments).tight (hvs.ready _) (.inl rfl) hst
    rw [hvalues]
    exact .call span hws' hitems' hvs'
  | @member object ws x span hobject ih =>
    refine ih.append hobject.ne_nil fun s ws' vs' hws' hst => ?_
    have hobject : EndsOperand ws := hobject.nests
    rw [hobject] at hst
    rw [hst.flat rfl (flat_property x)]
    exact .member x span hws'
  | @prefixed operator operand ws span hop _ ih =>
    refine .of_first ?_ fun s vs hs hst => ?_
    · revert operator
      decide
    · obtain ⟨hoperand, hline⟩ := Site.past_prefix hop hs
      exact .prefixed span hop (ih.tight (.of_operand hoperand) hline hst)
  | binary span hop hn hl hnl _ ihl ihr =>
    refine (Survives.operator (mem_infixOperators hop) ihl hl.nests hl.ne_nil hnl ihr).mono ?_
    rintro _ - ⟨ws', nl', us', rfl, hws', hnl', hus'⟩
    exact .binary span hop hn hws' hnl' hus'
  | assignment span hop ht hnl _ iht ihv =>
    refine (Survives.operator (List.mem_append_left _ hop) iht ht.nests ht.ne_nil hnl ihv).mono ?_
    rintro _ - ⟨ws', nl', us', rfl, hws', hnl', hus'⟩
    exact .assignment span hop hws' hnl' hus'
  | tighter hn _ ih => exact ih.mono fun _ _ he => .tighter hn he
  | @block items ws span hitems hws ih =>
    refine .of_first rfl fun s vs _ hst => ?_
    have hkeeps : Keeps ws := hws.keeps (List.forall_mem_map.2 fun i hi => (hitems i hi).nests)
    obtain ⟨ws', _, rfl, h₁, h₂⟩ := hst.split
    have hafter : ((s.past (.symbol "\x7b")).after ws).inParens = false :=
      Site.inParens_congr (hkeeps _)
    obtain ⟨_, rfl, hend⟩ := h₂.tight (Site.allows_of_inParens hafter _)
    cases hend
    have hstatements : Items (fun us a => Survives (Derives fits (.statement a)) us ∧ Keeps us)
        OnLines ws (items.map (·.1)) :=
      ⟨items, rfl, fun i hi => ⟨ih i hi, (hitems i hi).nests⟩, hws⟩
    obtain ⟨items', hvalues, hitems', hws'⟩ := Items.onLines_survives hstatements _ _ rfl h₁
    rw [hvalues]
    exact .block span hitems' hws'
  | nested _ ih => exact ih.mono fun _ _ hb => .nested hb
  | @conditional condition body ws vs span hc hb ihc ihb =>
    have hends : EndsOperand ws := hc.nests
    refine .of_first rfl fun s us _ hst => ?_
    obtain ⟨ws', vs', rfl, hws', h₁⟩ := ihc.split_tight (.of_operand rfl) (.inl rfl) hst
    rw [hends] at h₁
    exact .conditional span hws' (ihb.tight (hb.ready_block _) (.inl rfl) h₁)
  | @alternative condition body elseBody ws vs us span hc hb he ihc ihb ihe =>
    have hends : EndsOperand ws := hc.nests
    have hends' : EndsOperand vs := hb.nests
    refine .of_first rfl fun s rest _ hst => ?_
    obtain ⟨ws', _, rfl, hws', h₁⟩ := ihc.split_tight (.of_operand rfl) (.inl rfl) hst
    rw [hends] at h₁
    obtain ⟨vs', _, rfl, hvs', h₂⟩ := ihb.split_tight (hb.ready_block _) (.inl rfl) h₁
    rw [hends'] at h₂
    obtain ⟨us', rfl, h₃⟩ := h₂.tight (Site.allows_of_lineEnd rfl rfl)
    exact .alternative span hws' hvs' (ihe.tight (he.ready_block _) (.inl rfl) h₃)
  | function x span hsig hb ih =>
    refine .of_first rfl fun s us _ hst => ?_
    obtain ⟨_, rfl, h₁⟩ := hst.tight (Site.allows_of_lineEnd rfl rfl)
    obtain ⟨ws', vs', rfl, hsig', h₂⟩ :=
      hsig.survives.split_tight (hsig.ready _) (.inl rfl) h₁
    exact .function x span hsig' (ih.tight (hb.ready_block _) (.inl (hsig.lineEnd _)) h₂)
  | result span _ ih =>
    refine .of_first rfl fun s us _ hst => ?_
    exact .result span (ih.tight (.of_operand rfl) (.inl rfl) hst)
  | @loop iterable items ws nl vs names bodySpan span he hnl hitems hvs ihe ihs =>
    have hends : EndsOperand ws := he.nests
    refine .of_first rfl fun s us _ hst => ?_
    obtain ⟨ws', _, rfl, hws', h₁⟩ := ihe.split_tight (.of_operand rfl) (.inl rfl) hst
    rw [hends] at h₁
    obtain ⟨_, rfl, h₂⟩ := h₁.tight (Site.allows_of_lineEnd rfl rfl)
    obtain ⟨nl', _, rfl, h₃, h₄⟩ := h₂.split
    obtain ⟨names', _, rfl, h₅, h₆⟩ := h₄.split
    obtain ⟨vs', _, rfl, h₇, h₈⟩ := h₆.split
    -- in the braces no lines are ignored
    have hlines := Site.inParens_congr
      (hnl.keeps ((s.past (.keyword .kwFor)).behind.past (.symbol "\x7b")))
    have hnames := (Site.inParens_congr ((level_loopNames names).keeps _)).trans hlines
    have hbody := (Site.inParens_congr (hvs.keeps (fun i hi => (hitems i hi).nests) _)).trans hnames
    obtain rfl := h₅.level hlines (level_loopNames names)
    obtain ⟨items', hvalues, hitems', hvs'⟩ :=
      hvs.survives hfits (fun i hi => ⟨ihs i hi, (hitems i hi).nests⟩) hnames h₇
    obtain ⟨_, rfl, hend⟩ := h₈.tight (Site.allows_of_inParens hbody _)
    cases hend
    rw [← hvalues]
    exact .loop names bodySpan span hws' (h₃.emptyLines hnl) hitems' hvs'
  | classDefinition x superclass span hb ih =>
    have hflat := flat_superclassText superclass
    refine .of_first rfl fun s us _ hst => ?_
    obtain ⟨_, rfl, h₁⟩ := hst.tight (Site.allows_of_lineEnd rfl rfl)
    obtain ⟨superclass', ws', rfl, h₂, h₃⟩ := h₁.split
    rw [h₂.flat rfl hflat]
    exact .classDefinition x superclass span
      (ih.tight (hb.ready_block _) (.inl (hflat.lineEnd rfl)) h₃)
  | unassigned changes x valueSpan span hws =>
    refine .of_first rfl fun s us _ hst => ?_
    obtain ⟨_, rfl, h₁⟩ := hst.tight (Site.allows_of_lineEnd rfl rfl)
    rw [h₁.flat rfl (hws.flat List.mem_cons_self)]
    exact .unassigned changes x valueSpan span hws
  | declaration changes x span hws hnl _ ih =>
    have hflat := hws.flat List.mem_cons_self
    refine .of_first rfl fun s us _ hst => ?_
    obtain ⟨_, rfl, h₁⟩ := hst.tight (Site.allows_of_lineEnd rfl rfl)
    obtain ⟨type', _, rfl, h₂, h₃⟩ := h₁.split
    rw [h₂.flat rfl hflat]
    obtain ⟨_, rfl, h₄⟩ := h₃.tight (Site.allows_of_lineEnd (hflat.lineEnd rfl) rfl)
    obtain ⟨nl', vs', rfl, hnl', hvs'⟩ := ih.lines rfl hnl h₄
    exact .declaration changes x span hws hnl' hvs'
  | expression span _ hne ih =>
    exact ih.mono fun us hhead he => .expression span he (hhead ▸ hne)

end Derives

end ScriptSyntax
