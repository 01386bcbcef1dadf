import Mathlib.Data.List.TakeWhile
import Mathlib.Logic.Basic
import ScriptSyntax.Parse

/-! The way of a cursor: the tokens that lie between two of its places, and what the elementary
parsers do there. -/
namespace ScriptSyntax
namespace Cursor
variable {c d e : Cursor} {ts us : List Token}

/-- One place is reached from another by consuming some tokens. None of them ends the input. -/
def Passes : Cursor → List Token → Cursor → Prop
  | c, [], d => c = d
  | c, t :: ts, d => c.current = t ∧ t.kind ≠ .endOfInput ∧ Passes c.next ts d

theorem ext_of_lists (hc : c.consumed = d.consumed) (hu : c.upcoming = d.upcoming)
    (hf : c.finish = d.finish) : c = d := by
  obtain ⟨_, _, _, _, rfl⟩ := c
  obtain ⟨_, _, _, _, rfl⟩ := d
  simp_all

theorem upcoming_of_current (h : c.current.kind ≠ .endOfInput) :
    c.upcoming = c.current :: c.next.upcoming ∧ c.next.consumed = c.current :: c.consumed ∧
      c.next.finish = c.finish := by
  obtain ⟨consumed, upcoming, finish, _, rfl⟩ := c
  cases upcoming with
  | nil => exact absurd rfl h
  | cons t rest =>
    have ht : t.kind ≠ .endOfInput := h
    simp [next, current, ht]

theorem next_of_end (h : c.current.kind = .endOfInput) : c.next = c := by
  obtain ⟨consumed, upcoming, finish, _, rfl⟩ := c
  cases upcoming with
  | nil => rfl
  | cons t rest =>
    have ht : t.kind = .endOfInput := h
    simp [next, ht]

theorem remaining_next (h : c.current.kind ≠ .endOfInput) : c.next.remaining + 1 = c.remaining := by
  rw [c.remaining_eq, c.next.remaining_eq, (upcoming_of_current h).1, List.length_cons]

theorem Passes.refl (c : Cursor) : c.Passes [] c := rfl

theorem Passes.next (h : c.current.kind ≠ .endOfInput) : c.Passes [c.current] c.next :=
  ⟨rfl, h, rfl⟩

theorem passes_append : c.Passes (ts ++ us) e ↔ ∃ d, c.Passes ts d ∧ d.Passes us e := by
  induction ts generalizing c with
  | nil => simp [Passes]
  | cons t ts ih =>
    simp only [List.cons_append, Passes, ih]
    constructor
    · rintro ⟨ht, hk, d, hd, he⟩
      exact ⟨d, ⟨ht, hk, hd⟩, he⟩
    · rintro ⟨d, ⟨ht, hk, hd⟩, he⟩
      exact ⟨ht, hk, d, hd, he⟩

theorem Passes.append (h : c.Passes ts d) (h' : d.Passes us e) : c.Passes (ts ++ us) e :=
  passes_append.2 ⟨d, h, h'⟩

theorem Passes.remaining (h : c.Passes ts d) : d.remaining + ts.length = c.remaining := by
  induction ts generalizing c with
  | nil =>
    obtain rfl : c = d := h
    rfl
  | cons t ts ih =>
    obtain ⟨rfl, hk, h⟩ := h
    have hs := ih h
    have hn := remaining_next hk
    rw [List.length_cons]
    omega

/-- The lists of a cursor before and after a passage. -/
theorem Passes.lists (h : c.Passes ts d) : c.upcoming = ts ++ d.upcoming ∧
    d.consumed = ts.reverse ++ c.consumed ∧ d.finish = c.finish := by
  induction ts generalizing c with
  | nil =>
    obtain rfl : c = d := h
    simp
  | cons t ts ih =>
    obtain ⟨rfl, hk, h⟩ := h
    obtain ⟨hu, hc, hf⟩ := ih h
    obtain ⟨hu', hc', hf'⟩ := upcoming_of_current hk
    refine ⟨?_, ?_, hf.trans hf'⟩
    · rw [hu', hu, List.cons_append]
    · rw [hc, hc', List.reverse_cons, List.append_assoc, List.singleton_append]

/-- There is one way from a place to another. -/
theorem Passes.unique (h : c.Passes ts d) (h' : c.Passes us d) : ts = us := by
  have hup := h.lists.1
  rw [h'.lists.1] at hup
  exact (List.append_cancel_right hup).symm

theorem Passes.kind_ne (h : c.Passes ts d) : ∀ t ∈ ts, t.kind ≠ .endOfInput := by
  induction ts generalizing c with
  | nil => simp
  | cons t ts ih => exact List.forall_mem_cons.2 ⟨h.2.1, ih h.2.2⟩

/-- A cursor can pass the tokens that its upcoming ones begin with, up to an end of input. -/
theorem passes_of_upcoming (hu : c.upcoming = ts ++ us) (hk : ∀ t ∈ ts, t.kind ≠ .endOfInput) :
    ∃ d, c.Passes ts d ∧ d.upcoming = us := by
  induction ts generalizing c with
  | nil => exact ⟨c, .refl c, hu⟩
  | cons t ts ih =>
    obtain ⟨ht, hts⟩ := List.forall_mem_cons.1 hk
    have hcur : c.current = t := by rw [current, hu]; rfl
    have hlists := upcoming_of_current (c := c) (hcur ▸ ht)
    rw [hu, hcur, List.cons_append, List.cons_inj_right] at hlists
    obtain ⟨d, hd, hdu⟩ := ih hlists.1.symm hts
    exact ⟨d, ⟨hcur, ht, hd⟩, hdu⟩

theorem Passes.tokens (h : c.Passes ts d) : d.tokens = c.tokens := by
  obtain ⟨hu, hc, hf⟩ := h.lists
  simp [Cursor.tokens, hu, hc, hf]

theorem Passes.index (h : c.Passes ts d) : d.index = c.index + ts.length := by
  rw [Cursor.index, h.lists.2.1, List.length_append, List.length_reverse, Nat.add_comm]
  rfl

theorem length_tokens (c : Cursor) : c.tokens.length = c.index + c.remaining + 1 := by
  rw [Cursor.tokens, List.length_append, List.length_append, List.length_reverse, c.remaining_eq]
  rfl

theorem current_getElem? (c : Cursor) : c.tokens[c.index]? = some c.current := by
  obtain ⟨consumed, upcoming, finish, _, rfl⟩ := c
  cases upcoming <;> simp [Cursor.tokens, index, current]

theorem current_mem (c : Cursor) : c.current ∈ c.tokens :=
  List.mem_of_getElem? c.current_getElem?

/-- A cursor is made in front of the tokens before an end of input. -/
theorem start_closed {last : Token} (h : last.kind = .endOfInput) (before : List Token)
    (file : String) : (start (before ++ [last]) file).consumed = [] ∧
      (start (before ++ [last]) file).upcoming = before ∧
      (start (before ++ [last]) file).finish.token = last := by
  have hlast : EndMark.token ⟨last.text, last.span⟩ = last := by rw [EndMark.token, ← h]
  simp [start, h, hlast]

theorem skip_of_ne {kind : TokenKind} (h : c.current.kind ≠ kind) : c.skip kind = c := by
  obtain ⟨consumed, upcoming, finish, _, rfl⟩ := c
  cases upcoming with
  | nil => simp [skip, run]
  | cons t rest =>
    have ht : t.kind ≠ kind := h
    simp [skip, run, ht]

theorem skip_next {kind : TokenKind} (h : c.current.kind = kind) (hk : kind ≠ .endOfInput) :
    c.skip kind = c.next.skip kind ∧ c.run kind = c.current :: c.next.run kind := by
  obtain ⟨hu, hc, hf⟩ := upcoming_of_current (c := c) (h ▸ hk)
  have hrun : c.run kind = c.current :: c.next.run kind := by
    rw [run, run, if_neg hk, if_neg hk, hu, List.takeWhile_cons, if_pos (by simpa using h)]
  refine ⟨ext_of_lists ?_ ?_ hf.symm, hrun⟩
  · simp only [skip, hrun, hc, List.reverse_cons, List.append_assoc, List.singleton_append]
  · simp only [skip, hrun, List.length_cons]
    rw [hu, List.drop_succ_cons]

/-- Skipping passes a run of tokens of the kind and ends before one of another kind. -/
theorem passes_skip (c : Cursor) (kind : TokenKind) : c.Passes (c.run kind) (c.skip kind) := by
  by_cases hk : kind = .endOfInput
  · have hrun : c.run kind = [] := if_pos hk
    rw [hrun]
    exact ext_of_lists (by simp [skip, hrun]) (by simp [skip, hrun]) rfl
  · by_cases hc : c.current.kind = kind
    · obtain ⟨hs, hr⟩ := skip_next hc hk
      have hn := remaining_next (c := c) (hc ▸ hk)
      rw [hs, hr]
      exact ⟨rfl, hc ▸ hk, passes_skip c.next kind⟩
    · have hrun : c.run kind = [] := by
        obtain ⟨consumed, upcoming, finish, _, rfl⟩ := c
        cases upcoming with
        | nil => simp [run]
        | cons t rest =>
          have ht : t.kind ≠ kind := hc
          simp [run, ht]
      rw [skip_of_ne hc, hrun]
      exact .refl c
termination_by c.remaining

theorem kind_of_mem_run {kind : TokenKind} {t : Token} (h : t ∈ c.run kind) : t.kind = kind := by
  rw [run] at h
  split at h
  · simp at h
  · simpa using List.mem_takeWhile_imp h

theorem current_skip_ne (c : Cursor) {kind : TokenKind} (hk : kind ≠ .endOfInput) :
    (c.skip kind).current.kind ≠ kind := by
  by_cases hc : c.current.kind = kind
  · have hn := remaining_next (c := c) (hc ▸ hk)
    rw [(skip_next hc hk).1]
    exact current_skip_ne c.next hk
  · rwa [skip_of_ne hc]
termination_by c.remaining

theorem remaining_skip (c : Cursor) (kind : TokenKind) : (c.skip kind).remaining ≤ c.remaining :=
  Nat.sub_le _ _

theorem remaining_next_le (c : Cursor) : c.next.remaining ≤ c.remaining := by
  by_cases h : c.current.kind = .endOfInput
  · exact Nat.le_of_eq (by rw [next_of_end h])
  · exact Nat.le_of_succ_le (Nat.le_of_eq (remaining_next h))

theorem remaining_le_next (c : Cursor) : c.remaining ≤ c.next.remaining + 1 := by
  by_cases h : c.current.kind = .endOfInput
  · rw [next_of_end h]
    exact Nat.le_succ _
  · exact Nat.le_of_eq (remaining_next h).symm

end Cursor

namespace Outcome
variable {α : Type}

/-- Where the cursor is left. -/
def cursor? : Outcome α → Option Cursor
  | done _ c | failed _ c => some c
  | endless => none

/-- The result, if there is one. -/
def value? : Outcome α → Option α
  | done a _ => some a
  | failed _ _ | endless => none

/-- Why there is no result. -/
def error? : Outcome α → Option Error
  | failed e _ => some e
  | done _ _ | endless => none

theorem eq_failed {o : Outcome α} {e : Error} {c : Cursor} (he : o.error? = some e)
    (hc : o.cursor? = some c) : o = .failed e c := by
  cases o with
  | failed e' c' =>
    obtain rfl := Option.some.inj he
    obtain rfl := Option.some.inj hc
    rfl
  | done | endless => cases he

theorem exists_done {o : Outcome α} {c : Cursor} (he : o.error? = none) (hc : o.cursor? = some c) :
    ∃ a, o = .done a c := by
  cases o with
  | done a c' =>
    obtain rfl := Option.some.inj hc
    exact ⟨a, rfl⟩
  | failed => cases he
  | endless => cases hc

end Outcome

namespace Parse
variable {α β : Type}

/-! The elementary parsers in front of others, by what they do to the cursor. -/

variable (c : Cursor)

@[simp] theorem current_bind (f : Token → Parse β) : (current >>= f) c = f c.current c := rfl

@[simp] theorem advance_bind (f : Token → Parse β) : (advance >>= f) c = f c.current c.next := rfl

@[simp] theorem skip_bind (kind : TokenKind) (f : Nat → Parse β) :
    (skip kind >>= f) c = f (c.run kind).length (c.skip kind) := rfl

@[simp] theorem atSymbol_bind (text : String) (f : Bool → Parse β) :
    (atSymbol text >>= f) c = f (c.current.isSymbol text) c := rfl

@[simp] theorem atToken_bind (f : Bool → Parse β) :
    (atToken >>= f) c = f (c.current.kind ≠ .endOfInput) c := rfl

@[simp] theorem accept_bind (test : Token → Bool) (f : Bool → Parse β) :
    (accept test >>= f) c = if test c.current then f true c.next else f false c := by
  rw [accept, bind_assoc, current_bind]
  split <;> rfl

@[simp] theorem expect_bind (test : Token → Bool) (k : Complaint) (f : Token → Parse β) :
    (expect test k >>= f) c = if test c.current then f c.current c.next else complain k c := by
  rw [expect, bind_assoc, current_bind]
  split <;> rfl

theorem bind_done {c d : Cursor} {p : Parse α} {a : α} (f : α → Parse β) (h : p c = .done a d) :
    (p >>= f) c = f a d := by
  rw [bind_apply, h]

theorem bind_failed {c d : Cursor} {p : Parse α} {e : Error} (f : α → Parse β)
    (h : p c = .failed e d) : (p >>= f) c = .failed e d := by
  rw [bind_apply, h]

theorem bind_endless {c : Cursor} {p : Parse α} (f : α → Parse β) (h : p c = .endless) :
    (p >>= f) c = .endless := by
  rw [bind_apply, h]

/-- A result of two parsers one after the other is one of both. -/
theorem bind_eq_done {c e : Cursor} {p : Parse α} {f : α → Parse β} {b : β} :
    (p >>= f) c = .done b e ↔ ∃ a d, p c = .done a d ∧ f a d = .done b e := by
  rw [bind_apply]
  cases p c with
  | done a d => simp [and_assoc]
  | failed | endless => simp

end Parse
end ScriptSyntax
