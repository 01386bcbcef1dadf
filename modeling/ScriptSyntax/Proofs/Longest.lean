import ScriptSyntax.Proofs.Derivation

/-! Where the rules leave open to which of two statements of a loop some tokens belong, they can all
be given to the first one: what the rules derive, they derive with longest statements too. -/
namespace ScriptSyntax
variable {fits : Statement → List Terminal → Prop} {ws vs us nl : List Terminal} {tier : Tier}
  {e : Expr} {operator : String}

/-! Operands with operators between them, apart from how they group. -/

/-- Whether an operator stands between operands. -/
def Joins (operator : String) : Prop :=
  operator ∈ ["=", "+=", "-="] ∨ ∃ tier : Tier, operator ∈ tier.operators

inductive Chain (fits : Statement → List Terminal → Prop) : List Terminal → Prop
  | one {e : Expr} {ws : List Terminal} : Derives fits (.expr .unary e) ws → Chain fits ws
  | cons {e : Expr} {operator : String} {ws nl vs : List Terminal} :
    Derives fits (.expr .unary e) ws → Joins operator → EmptyLines nl → Chain fits vs →
      Chain fits (ws ++ .symbol operator :: (nl ++ vs))

theorem Chain.append (h : Chain fits ws) (hop : Joins operator) (hnl : EmptyLines nl)
    (h' : Chain fits vs) : Chain fits (ws ++ .symbol operator :: (nl ++ vs)) := by
  induction h with
  | one he => exact .cons he hop hnl h'
  | cons he hop' hnl' _ ih =>
    have hchain := Chain.cons he hop' hnl' ih
    simpa using hchain

theorem Derives.chain (h : Derives fits (.expr tier e) ws) : Chain fits ws := by
  generalize hp : Phrase.expr tier e = p at h
  induction h generalizing tier e with
  | number text span =>
    exact .one ((Derives.number text span).loosen (by decide))
  | string value span => exact .one ((Derives.string value span).loosen (by decide))
  | name x span => exact .one ((Derives.name x span).loosen (by decide))
  | grouping hnl he hnl' _ => exact .one ((Derives.grouping hnl he hnl').loosen (by decide))
  | closure span hsig hb _ => exact .one ((Derives.closure span hsig hb).loosen (by decide))
  | call span hc hitems hvs _ _ => exact .one ((Derives.call span hc hitems hvs).loosen (by decide))
  | member x span ho _ => exact .one ((Derives.member x span ho).loosen (by decide))
  | prefixed span hop he _ => exact .one (.prefixed span hop he)
  | binary span hop _ _ hnl _ ihl ihr =>
    exact (ihl rfl).append (.inr ⟨_, hop⟩) hnl (ihr rfl)
  | assignment span hop _ hnl _ iht ihv => exact (iht rfl).append (.inl hop) hnl (ihv rfl)
  | tighter _ _ ih => exact ih rfl
  | _ => cases hp

theorem Tier.rank_of_operator (h : operator ∈ tier.operators) :
    logic.rank ≤ tier.rank ∧ tier.rank ≤ mul.rank := by
  cases tier with
  | logic | rel | add | mul => decide
  | _ => cases h

/-- One more operand before an expression. The operator finds its place at the left edge. -/
theorem Derives.prepend {loose : Tier} {left : Expr} (hu : Derives fits (.expr .unary left) us)
    (hop : operator ∈ tier.operators) (hnl : EmptyLines nl) (h : Derives fits (.expr loose e) ws)
    (hr : loose.rank ≤ tier.rank) :
    ∃ e', Derives fits (.expr loose e') (us ++ .symbol operator :: (nl ++ ws)) := by
  have hrank := Tier.rank_of_operator hop
  generalize hp : Phrase.expr loose e = p at h
  induction h generalizing loose e with
  | binary span hop' hn _ hnl' hr' ihl _ =>
    obtain ⟨rfl, rfl⟩ := Phrase.expr.inj hp
    obtain ⟨l', hl'⟩ := ihl hr rfl
    exact ⟨_, by simpa using Derives.binary span hop' hn hl' hnl' hr'⟩
  | assignment span hop' _ hnl' hv iht _ =>
    obtain ⟨rfl, rfl⟩ := Phrase.expr.inj hp
    obtain ⟨t', ht'⟩ := iht hrank.1 rfl
    exact ⟨_, by simpa using Derives.assignment span hop' ht' hnl' hv⟩
  | @tighter t next _ _ hn he ih =>
    obtain ⟨rfl, rfl⟩ := Phrase.expr.inj hp
    have hnext := Tier.rank_next hn
    by_cases hle : next.rank ≤ tier.rank
    · obtain ⟨e', he'⟩ := ih hle rfl
      exact ⟨e', .tighter hn he'⟩
    · obtain rfl : loose = tier := Tier.eq_of_rank (by omega)
      have hleft : Derives fits (.expr loose left) us :=
        hu.loosen (Nat.le_trans hrank.2 (by decide))
      exact ⟨_, .binary default hop hn hleft hnl he⟩
  | number | string | name | grouping | closure | call | member | prefixed =>
    obtain ⟨rfl, rfl⟩ := Phrase.expr.inj hp
    exact absurd (Nat.le_trans hr hrank.2) (by decide)
  | _ => cases hp

theorem Chain.derives (h : Chain fits ws) : ∃ e, Derives fits (.expr .expr e) ws := by
  induction h with
  | one he => exact ⟨_, he.loosen (by decide)⟩
  | cons he hop hnl _ ih =>
    obtain ⟨e', he'⟩ := ih
    rcases hop with hop | ⟨tier, hop⟩
    · exact ⟨_, .assignment default hop (he.loosen (by decide)) hnl he'⟩
    · exact he.prepend hop hnl he' (Nat.zero_le _)

/-- Two expressions with any operator between them are one. -/
theorem Derives.join {tier' : Tier} {e' : Expr} (h : Derives fits (.expr tier e) ws)
    (hop : Joins operator) (hnl : EmptyLines nl) (h' : Derives fits (.expr tier' e') vs) :
    ∃ a, Derives fits (.expr .expr a) (ws ++ .symbol operator :: (nl ++ vs)) :=
  (h.chain.append hop hnl h'.chain).derives

/-- What makes a longer one of every primary with tails, it makes of every expression at its right
edge. -/
theorem Derives.extend (hvs : ∀ {callee us}, Derives fits (.expr .suffixed callee) us →
      ∃ e', Derives fits (.expr .suffixed e') (us ++ vs))
    (h : Derives fits (.expr tier e) ws) (hr : tier.rank ≤ Tier.suffixed.rank) :
    ∃ e', Derives fits (.expr tier e') (ws ++ vs) := by
  generalize hp : Phrase.expr tier e = p at h
  induction h generalizing tier e with
  | binary span hop hn hl hnl _ _ ihr =>
    obtain ⟨rfl, rfl⟩ := Phrase.expr.inj hp
    have hrank := Tier.rank_of_operator hop
    obtain ⟨r', hr'⟩ := ihr (by
      have hnext := Tier.rank_next hn
      have hlt : Tier.mul.rank < Tier.suffixed.rank := by decide
      omega) rfl
    exact ⟨_, by simpa using Derives.binary span hop hn hl hnl hr'⟩
  | assignment span hop ht hnl _ _ ihv =>
    obtain ⟨rfl, rfl⟩ := Phrase.expr.inj hp
    obtain ⟨v', hv'⟩ := ihv hr rfl
    exact ⟨_, by simpa using Derives.assignment span hop ht hnl hv'⟩
  | prefixed span hop _ ih =>
    obtain ⟨rfl, rfl⟩ := Phrase.expr.inj hp
    obtain ⟨e', he'⟩ := ih hr rfl
    exact ⟨_, .prefixed span hop he'⟩
  | call span hc hitems hargs _ _ =>
    obtain ⟨rfl, rfl⟩ := Phrase.expr.inj hp
    exact hvs (.call span hc hitems hargs)
  | member x span ho _ =>
    obtain ⟨rfl, rfl⟩ := Phrase.expr.inj hp
    exact hvs (.member x span ho)
  | @tighter t next _ _ hn he ih =>
    obtain ⟨rfl, rfl⟩ := Phrase.expr.inj hp
    by_cases hle : next.rank ≤ Tier.suffixed.rank
    · obtain ⟨e', he'⟩ := ih hle rfl
      exact ⟨e', .tighter hn he'⟩
    · obtain rfl : tier = .suffixed := Tier.eq_of_rank (by
        have hnext := Tier.rank_next hn
        omega)
      exact hvs (.tighter hn he)
  | number | string | name | grouping | closure =>
    obtain ⟨rfl, rfl⟩ := Phrase.expr.inj hp
    exact absurd hr (by decide)
  | _ => cases hp

theorem Derives.head?_append {p : Phrase} (h : Derives fits p ws) (vs : List Terminal) :
    (ws ++ vs).head? = ws.head? := by
  obtain ⟨w, us, rfl, -⟩ := h.begins
  rfl

/-- The terminals that statements begin with and expressions go on with. -/
def GoesOn (ws : List Terminal) : Prop :=
  ws.head? = some (.symbol "(") ∨ ws.head? = some (.symbol "-")

/-- An expression that begins with a parenthesis or a minus can be taken for the end of an
expression before it. -/
theorem Derives.merge {first : Expr} (hfirst : Derives fits (.expr .expr first) us)
    (h : Derives fits (.expr tier e) ws) (hhead : GoesOn ws) :
    ∃ a, Derives fits (.expr .expr a) (us ++ ws) := by
  generalize hp : Phrase.expr tier e = p at h
  induction h generalizing tier e with
  | number | string | name | closure => simp [GoesOn] at hhead
  | @grouping a nl ws nl' hnl ha hnl' _ =>
    have hargument :
        Parenthesized [ws] (.symbol "(" :: (nl ++ (ws ++ (nl' ++ [.symbol ")"])))) := by
      have h := Parenthesized.intro hnl (.last ws hnl')
      simpa using h
    refine hfirst.extend (fun hcallee => ?_) (by decide)
    exact ⟨_, @Derives.call fits _ [(a, ws)] _ _ default hcallee (by simpa using ha) hargument⟩
  | @call _ _ ws vs span hc hitems hargs ihc _ =>
    rw [GoesOn, hc.head?_append] at hhead
    obtain ⟨c', hc'⟩ := ihc hhead rfl
    have hextend := hc'.extend (fun hcallee => ⟨_, .call span hcallee hitems hargs⟩) (by decide)
    rwa [List.append_assoc] at hextend
  | member x span ho iho =>
    rw [GoesOn, ho.head?_append] at hhead
    obtain ⟨o', ho'⟩ := iho hhead rfl
    have hextend := ho'.extend (fun hobject => ⟨_, .member x span hobject⟩) (by decide)
    rwa [List.append_assoc] at hextend
  | @prefixed operator _ _ span hop he _ =>
    have hminus : operator = "-" := by
      simp only [GoesOn, List.head?_cons, Option.some.injEq, Terminal.symbol.injEq] at hhead
      rcases hhead with rfl | rfl
      · exact absurd hop (by decide)
      · rfl
    rw [hminus]
    exact hfirst.join (.inr ⟨.add, by decide⟩) emptyLines_nil he
  | binary span hop _ hl hnl hr ihl _ =>
    rw [GoesOn, hl.head?_append] at hhead
    obtain ⟨l', hl'⟩ := ihl hhead rfl
    have hjoin := hl'.join (.inr ⟨_, hop⟩) hnl hr
    rwa [List.append_assoc] at hjoin
  | assignment span hop ht hnl hv iht _ =>
    rw [GoesOn, ht.head?_append] at hhead
    obtain ⟨t', ht'⟩ := iht hhead rfl
    have hjoin := ht'.join (.inl hop) hnl hv
    rwa [List.append_assoc] at hjoin
  | tighter _ _ ih => exact ih hhead rfl
  | _ => cases hp

/-- A statement that ends in an expression takes an expression that could be a part of it. -/
theorem Derives.merge_statement {s : Statement} (h : Derives fits (.statement s) ws)
    (hopen : s.endsOpen) (he : Derives fits (.expr .expr e) vs) (hhead : GoesOn vs) :
    ∃ s', s'.endsOpen ∧ Derives fits (.statement s') (ws ++ vs) := by
  cases h with
  | result span hv =>
    obtain ⟨v', hv'⟩ := hv.merge he hhead
    exact ⟨_, rfl, .result span hv'⟩
  | declaration changes x span ht hnl hv =>
    obtain ⟨v', hv'⟩ := hv.merge he hhead
    have hs := Derives.declaration changes x span ht hnl hv'
    exact ⟨_, endsOpen_declaration hv' changes x _ span, by simpa using hs⟩
  | expression span hv hne =>
    obtain ⟨v', hv'⟩ := hv.merge he hhead
    exact ⟨_, rfl, .expression span hv' (by rwa [hv.head?_append])⟩
  | nested | conditional | alternative | function | loop | classDefinition | unassigned =>
    cases hopen

/-- What begins with a parenthesis or a minus is an expression. -/
theorem Derives.expression_of_head {s : Statement} (h : Derives fits (.statement s) ws)
    (hhead : GoesOn ws) : s.endsOpen ∧ ∃ e, Derives fits (.expr .expr e) ws := by
  cases h with
  | expression span he _ => exact ⟨rfl, _, he⟩
  | nested hb =>
    obtain ⟨w, us, rfl, rfl⟩ := hb.begins
    simp [GoesOn] at hhead
  | conditional | alternative | function | result | loop | classDefinition | unassigned
    | declaration => simp [GoesOn] at hhead

theorem longestFit_or_goesOn (s : Statement) (rest : List Terminal) :
    longestFit s rest ∨ (s.endsOpen ∧ GoesOn rest) := by
  by_cases hopen : s.endsOpen
  · by_cases hhead : GoesOn rest
    · exact .inr ⟨hopen, hhead⟩
    · exact .inl fun _ => not_or.1 hhead
  · exact .inl fun h => absurd h hopen

/-- The statements of a loop can be made as long as possible, beginning with the last ones. -/
theorem Loosely.longest {fits' : Statement → List Terminal → Prop}
    {items : List (Statement × List Terminal)} (h : Loosely fits' items ws)
    (hitems : ∀ i ∈ items, Derives fits (.statement i.1) i.2) :
    ∃ items' : List (Statement × List Terminal),
      (∀ i ∈ items', Derives fits (.statement i.1) i.2) ∧ Loosely longestFit items' ws := by
  induction h with
  | nil hnl => exact ⟨[], by simp, .nil hnl⟩
  | @cons us nl vs s items hnl _ _ ih =>
    obtain ⟨hs, hrest⟩ := List.forall_mem_cons.1 hitems
    obtain ⟨items', hitems', hloose⟩ := ih hrest
    rcases longestFit_or_goesOn s vs with hfit | ⟨hopen, hhead⟩
    · exact ⟨(s, us) :: items', List.forall_mem_cons.2 ⟨hs, hitems'⟩, .cons us hnl hfit hloose⟩
    · cases hloose with
      | nil hvs =>
        cases vs with
        | nil => simp [GoesOn] at hhead
        | cons v vs => simp [GoesOn, hvs v List.mem_cons_self] at hhead
      | @cons us₂ nl₂ vs₂ s₂ items₂ hnl₂ hfit₂ hloose₂ =>
        obtain ⟨hs₂, hitems₂⟩ := List.forall_mem_cons.1 hitems'
        cases nl₂ with
        | cons v nl₂ => simp [GoesOn, hnl₂ v List.mem_cons_self] at hhead
        | nil =>
          rw [List.nil_append, GoesOn, hs₂.head?_append] at hhead
          obtain ⟨hopen₂, e, he⟩ := hs₂.expression_of_head hhead
          obtain ⟨s', _, hs'⟩ := hs.merge_statement hopen he hhead
          have hcons := Loosely.cons (us ++ us₂) hnl (s := s') (fun _ => hfit₂ hopen₂) hloose₂
          exact ⟨(s', us ++ us₂) :: items₂, List.forall_mem_cons.2 ⟨hs', hitems₂⟩, by
            simpa using hcons⟩

/-- Some tree of the kind of a phrase has its words, with longest statements. -/
def Phrase.Longest : Phrase → List Terminal → Prop
  | expr tier _, ws => ∃ e, Derives longestFit (.expr tier e) ws
  | block _, ws => ∃ b, Derives longestFit (.block b) ws
  | statement _, ws => ∃ s, Derives longestFit (.statement s) ws

/-- Other values for all pieces. -/
theorem exists_items {α : Type} {P : α → List Terminal → Prop} {items : List (α × List Terminal)}
    (h : ∀ i ∈ items, ∃ a, P a i.2) :
    ∃ items' : List (α × List Terminal), items'.map (·.2) = items.map (·.2) ∧
      ∀ i ∈ items', P i.1 i.2 := by
  induction items with
  | nil => exact ⟨[], rfl, by simp⟩
  | cons i items ih =>
    obtain ⟨⟨a, ha⟩, hrest⟩ := List.forall_mem_cons.1 h
    obtain ⟨items', hmap, hitems'⟩ := ih hrest
    exact ⟨(a, i.2) :: items', by rw [List.map_cons, List.map_cons, hmap],
      List.forall_mem_cons.2 ⟨ha, hitems'⟩⟩

/-- Without a condition only the words of the statements matter. -/
theorem Loosely.anyFit {items items' : List (Statement × List Terminal)}
    (h : Loosely fits items ws) (hmap : items'.map (·.2) = items.map (·.2)) :
    Loosely anyFit items' ws := by
  induction h generalizing items' with
  | nil hnl =>
    obtain rfl := List.map_eq_nil_iff.1 hmap
    exact .nil hnl
  | cons us hnl _ _ ih =>
    obtain ⟨⟨s, _⟩, rest, rfl, rfl, hrest⟩ := List.map_eq_cons_iff.1 hmap
    exact .cons _ hnl trivial (ih hrest)

theorem Derives.longest {p : Phrase} (h : Derives fits p ws) : p.Longest ws := by
  induction h with
  | number text span => exact ⟨_, .number text span⟩
  | string value span => exact ⟨_, .string value span⟩
  | name x span => exact ⟨_, .name x span⟩
  | grouping hnl _ hnl' ih =>
    obtain ⟨e, he⟩ := ih
    exact ⟨e, .grouping hnl he hnl'⟩
  | closure span hsig _ ih =>
    obtain ⟨b, hb⟩ := ih
    exact ⟨_, .closure span hsig hb⟩
  | call span _ _ hvs ih iha =>
    obtain ⟨c, hc⟩ := ih
    obtain ⟨items', hmap, hitems'⟩ := exists_items iha
    exact ⟨_, .call span hc hitems' (by rwa [hmap])⟩
  | member x span _ ih =>
    obtain ⟨o, ho⟩ := ih
    exact ⟨_, .member x span ho⟩
  | prefixed span hop _ ih =>
    obtain ⟨e, he⟩ := ih
    exact ⟨_, .prefixed span hop he⟩
  | binary span hop hn _ hnl _ ihl ihr =>
    obtain ⟨l, hl⟩ := ihl
    obtain ⟨r, hr⟩ := ihr
    exact ⟨_, .binary span hop hn hl hnl hr⟩
  | assignment span hop _ hnl _ iht ihv =>
    obtain ⟨t, ht⟩ := iht
    obtain ⟨v, hv⟩ := ihv
    exact ⟨_, .assignment span hop ht hnl hv⟩
  | tighter hn _ ih =>
    obtain ⟨e, he⟩ := ih
    exact ⟨e, .tighter hn he⟩
  | block span _ hws ih =>
    obtain ⟨items', hmap, hitems'⟩ := exists_items ih
    exact ⟨_, .block span hitems' (by rwa [hmap])⟩
  | nested _ ih =>
    obtain ⟨b, hb⟩ := ih
    exact ⟨_, .nested hb⟩
  | conditional span _ _ ihc ihb =>
    obtain ⟨c, hc⟩ := ihc
    obtain ⟨b, hb⟩ := ihb
    exact ⟨_, .conditional span hc hb⟩
  | alternative span _ _ _ ihc ihb ihe =>
    obtain ⟨c, hc⟩ := ihc
    obtain ⟨b, hb⟩ := ihb
    obtain ⟨e, he⟩ := ihe
    exact ⟨_, .alternative span hc hb he⟩
  | function x span hsig _ ih =>
    obtain ⟨b, hb⟩ := ih
    exact ⟨_, .function x span hsig hb⟩
  | result span _ ih =>
    obtain ⟨v, hv⟩ := ih
    exact ⟨_, .result span hv⟩
  | loop names bodySpan span _ hnl _ hvs ihe ihs =>
    obtain ⟨e, he⟩ := ihe
    obtain ⟨items', hmap, hitems'⟩ := exists_items ihs
    obtain ⟨items₂, hitems₂, hloose⟩ := (hvs.anyFit hmap).longest hitems'
    exact ⟨_, .loop names bodySpan span he hnl hitems₂ hloose⟩
  | classDefinition x superclass span _ ih =>
    obtain ⟨b, hb⟩ := ih
    exact ⟨_, .classDefinition x superclass span hb⟩
  | unassigned changes x valueSpan span ht => exact ⟨_, .unassigned changes x valueSpan span ht⟩
  | declaration changes x span ht hnl _ ih =>
    obtain ⟨v, hv⟩ := ih
    exact ⟨_, .declaration changes x span ht hnl hv⟩
  | expression span _ hne ih =>
    obtain ⟨v, hv⟩ := ih
    exact ⟨_, .expression span hv hne⟩

theorem DerivesProgram.longest {ss : List Statement} (h : DerivesProgram fits ss ws) :
    ∃ ss', DerivesProgram longestFit ss' ws := by
  cases h with
  | intro hitems hws =>
    obtain ⟨items', hmap, hitems'⟩ := exists_items fun i hi => (hitems i hi).longest
    exact ⟨_, .intro hitems' (by rwa [hmap])⟩

end ScriptSyntax
