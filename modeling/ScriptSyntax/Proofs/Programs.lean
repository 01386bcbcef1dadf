import ScriptSyntax.Proofs.Settling

/-! Programs put together: where one program is followed by the end of a line in the place of the
end of its input, another one goes on there. -/
namespace ScriptSyntax
open Parse

variable {f : Position → Position} {c c₁ c₂ d d₁ d₂ : Cursor} {ts us : List Token}

theorem Outcome.prepend_prepend {α : Type} (items more : List α) (o : Outcome (List α)) :
    (o.prepend more).prepend items = o.prepend (items ++ more) := by
  cases o with
  | done last c => rw [prepend, prepend, prepend, List.append_assoc]
  | failed | endless => rfl

theorem Outcome.prepend_nil {α : Type} (o : Outcome (List α)) : o.prepend [] = o := by
  cases o <;> rfl

theorem Cursor.Passes.latest_eq (h : c.Passes ts c₂) (h' : d.Passes ts d₂)
    (hl : ts = [] → d.consumed.head? = c.consumed.head?) :
    d₂.consumed.head? = c₂.consumed.head? := by
  have hid : Token.relocate id = id := rfl
  have hlatest := h.latest (f := id) (by rwa [hid, List.map_id]) fun hnil => by
    rw [hl hnil, hid, Option.map_id, id]
  rwa [hid, Option.map_id] at hlatest

namespace Grammar

/-- A statement is read again where its tokens are followed by one that closes. -/
theorem statement_settles {s : Statement} (h : script.statement c = .done s c₂) :
    ∃ ts, ts ≠ [] ∧ c.Passes ts c₂ ∧ ∀ d d₂, d.Passes ts d₂ →
      d.consumed.head? = c.consumed.head? → d₂.current.Closes →
        script.statement d = .done s d₂ := by
  obtain ⟨ts, hleast, hts, hd⟩ := settles_statement (f := id) c s c₂ h
  have hne : ts ≠ [] := List.ne_nil_of_length_pos hleast
  have hid : Token.relocate id = id := rfl
  refine ⟨ts, hne, hts, fun d d₂ hway hl hclose => ?_⟩
  have hconsumed : c₂.consumed ≠ [] := by
    rw [hts.lists.2.1]
    exact List.append_ne_nil_of_left_ne_nil (List.reverse_ne_nil_iff.2 hne) _
  rw [← Statement.relocate_id s]
  exact hd d d₂ ⟨hts, by rwa [hid, List.map_id], by rw [hl, hid, Option.map_id]; rfl,
    .inr ⟨hclose, hconsumed⟩⟩

theorem collect_programRound_lines (h : d.Passes us d₁) (hus : ∀ t ∈ us, t.kind = .newLine) :
    collect script.programRound d = collect script.programRound d₁ := by
  induction us generalizing d with
  | nil =>
    obtain rfl : d = d₁ := h
    rfl
  | cons u us ih =>
    obtain ⟨rfl, -, h⟩ := h
    obtain ⟨hu, hus⟩ := List.forall_mem_cons.1 hus
    rw [collect_programRound_line hu, ih h hus]

/-- A statement behind empty lines is read again where it stands in front of the end of a line. -/
theorem collect_programRound_again {s : Statement}
    (hend : (c.skip .newLine).current.kind ≠ .endOfInput)
    (hs : script.statement (c.skip .newLine) = .done s c₁) :
    ∃ ts, c.Passes ts c₁ ∧ ∀ d d₁, d.Passes ts d₁ → d.consumed.head? = c.consumed.head? →
      d₁.current.kind = .newLine →
        collect script.programRound d = (collect script.programRound d₁.next).prepend [s] := by
  have hrun := c.passes_skip .newLine
  have hfirst : (c.skip .newLine).current.kind ≠ .newLine := c.current_skip_ne (by simp)
  obtain ⟨us, hne, hus, hsettle⟩ := statement_settles hs
  refine ⟨_, hrun.append hus, fun d d₂ hd hl hline => ?_⟩
  obtain ⟨d₁, hd, hd₁⟩ := Cursor.passes_append.1 hd
  have hsame : d₁.current = (c.skip .newLine).current := by
    obtain ⟨u, us, rfl⟩ := List.exists_cons_of_ne_nil hne
    rw [hus.1, hd₁.1]
  have hlatest := hrun.latest_eq hd fun _ => hl
  have hs' := hsettle d₁ d₂ hd₁ hlatest (.inl hline)
  rw [collect_programRound_lines hd fun t ht => Cursor.kind_of_mem_run ht, collect_programRound,
    Cursor.skip_of_ne (hsame ▸ hfirst), if_neg (hsame ▸ hend), bind_done _ hs',
    programRest_line hline]

/-- In front of the end of a line a program goes on, its own statements first. -/
theorem collect_programRound_join {ss : List Statement}
    (h : collect script.programRound c = .done ss c₂) :
    c₂.current.kind = .endOfInput ∧ ∃ ts, c.Passes ts c₂ ∧ ∀ d d₁, d.Passes ts d₁ →
      d.consumed.head? = c.consumed.head? → d₁.current.kind = .newLine →
        collect script.programRound d = (collect script.programRound d₁).prepend ss := by
  induction hm : c.remaining using Nat.strong_induction_on generalizing c ss with
  | _ m ih =>
    rw [collect_programRound] at h
    by_cases hend : (c.skip .newLine).current.kind = .endOfInput
    · rw [if_pos hend] at h
      obtain ⟨rfl, rfl⟩ := Outcome.done.inj h
      refine ⟨hend, c.run .newLine, c.passes_skip .newLine, fun d d₁ hd _ _ => ?_⟩
      rw [collect_programRound_lines hd fun t ht => Cursor.kind_of_mem_run ht, Outcome.prepend_nil]
    rw [if_neg hend] at h
    cases hs : script.statement (c.skip .newLine) with
    | done s c₁ =>
      rw [bind_done _ hs] at h
      obtain ⟨us, hus, hread⟩ := collect_programRound_again hend hs
      by_cases hlast : c₁.current.kind = .endOfInput
      · rw [programRest_end hlast] at h
        obtain ⟨rfl, rfl⟩ := Outcome.done.inj h
        refine ⟨hlast, us, hus, fun d d₁ hd hl hline => ?_⟩
        rw [hread d d₁ hd hl hline, ← collect_programRound_line hline]
      by_cases hline : c₁.current.kind = .newLine
      · rw [programRest_line hline] at h
        cases hmore : collect script.programRound c₁.next with
        | done more c₃ =>
          rw [hmore] at h
          obtain ⟨rfl, rfl⟩ := Outcome.done.inj h
          have hlt : c₁.next.remaining < m := by
            have h₁ := remaining_statement hs
            have h₂ := c.remaining_skip .newLine
            have h₃ := c₁.remaining_next_le
            omega
          obtain ⟨hstop, vs, hvs, hjoin⟩ := ih _ hlt hmore rfl
          have hnext : c₁.Passes [c₁.current] c₁.next := .next hlast
          refine ⟨hstop, _, hus.append (hnext.append hvs), fun d d₃ hd hl hline' => ?_⟩
          obtain ⟨d₁, hd₁, hrest⟩ := Cursor.passes_append.1 hd
          obtain ⟨d₂, hd₂, hd₃⟩ := Cursor.passes_append.1 hrest
          obtain ⟨hcur, -, rfl⟩ := id hd₂
          have hlatest := hnext.latest_eq hd₂ fun hnil => by cases hnil
          rw [hread d d₁ hd₁ hl (hcur ▸ hline), hjoin d₁.next d₃ hd₃ hlatest hline',
            Outcome.prepend_prepend]
        | failed | endless =>
          rw [hmore] at h
          cases h
      · rw [programRest_other hlast hline] at h
        cases h
    | failed e c₁ =>
      rw [bind_failed _ hs] at h
      cases h
    | endless =>
      rw [bind_endless _ hs] at h
      cases h

theorem transports_programRest (s : Statement) :
    Transports f (List.map (Statement.relocate f)) (programRest s)
      (programRest (s.relocate f)) := by
  refine transports_atToken.bind fun b => ?_
  cases b with
  | true =>
    exact (opens_expect (fun _ => rfl) _).transports.bind fun _ =>
      (transports_collect transports_programRound).bind fun _ => transports_pure rfl
  | false => exact transports_pure rfl

/-- A program does not see what was consumed before it. -/
theorem collect_programRound_fresh (h : (collect script.programRound c).cursor? = some c₂) :
    ∃ ts, c.Passes ts c₂ ∧ ∀ d d₂, d.Passes (ts.map (Token.relocate f)) d₂ →
      d₂.current = c₂.current.relocate f →
        collect script.programRound d =
          (collect script.programRound c).transport f (List.map (Statement.relocate f)) d₂ := by
  have hrun := c.passes_skip .newLine
  have hlines : ∀ t ∈ (c.run .newLine).map (Token.relocate f), t.kind = .newLine := by
    intro t ht
    obtain ⟨u, hu, rfl⟩ := List.mem_map.1 ht
    exact Cursor.kind_of_mem_run (t := u) hu
  rw [collect_programRound c] at h ⊢
  by_cases hend : (c.skip .newLine).current.kind = .endOfInput
  · rw [if_pos hend] at h ⊢
    obtain rfl : c.skip .newLine = c₂ := Option.some.inj h
    refine ⟨_, hrun, fun d d₂ hd hcur => ?_⟩
    have hend' : d₂.current.kind = .endOfInput := by rw [hcur]; exact hend
    have hskip : d₂.skip .newLine = d₂ := Cursor.skip_of_ne (by simp [hend'])
    rw [collect_programRound_lines hd hlines, collect_programRound, hskip, if_pos hend']
    rfl
  · rw [if_neg hend] at h ⊢
    have hfresh := (opens_statement.fresh _ hend).bind (transports_programRest (f := f))
    obtain ⟨us, hus, -, hread⟩ := hfresh c₂ h
    refine ⟨_, hrun.append hus, fun d d₂ hd hcur => ?_⟩
    obtain ⟨d₁, hd, hd₁, hfirst⟩ := hus.middle hd hcur
    have hline : d₁.current.kind ≠ .newLine := by
      rw [hfirst]
      exact c.current_skip_ne (by simp)
    have hend' : d₁.current.kind ≠ .endOfInput := by rwa [hfirst]
    rw [collect_programRound_lines hd hlines, collect_programRound, Cursor.skip_of_ne hline,
      if_neg hend']
    exact hread d₁ d₂ hd₁ hcur

end Grammar
end ScriptSyntax
