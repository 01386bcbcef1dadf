import ScriptSyntax.Proofs.Complaints
import ScriptSyntax.Proofs.Sessions

/-! Tables in step. However a grammar is changed, the same keys have a power and a tail, and so no
parser ever meets a stray token. -/
namespace ScriptSyntax
open Parse

namespace Table
variable {α : Type} {t : Table α} {key : String}

theorem keys_insert (t : Table α) (key : String) (a : α) :
    (t.insert key a).keys = key :: t.keys.filter (· ≠ key) := by
  rw [keys, insert, List.map_cons, keys, List.filter_map]
  rfl

theorem get?_eq_none_iff : t.get? key = none ↔ key ∉ t.keys := by
  rw [get?, List.lookup_eq_none_iff, keys, List.mem_map, not_exists]
  simp only [bne_iff_ne, not_and]
  exact forall₂_congr fun _ _ => ne_comm

end Table

namespace Grammar
variable {g : Grammar}

/-- The same keys have a power and a tail, for expressions and for types. -/
structure InStep (g : Grammar) : Prop where
  exprs : g.powers.keys = g.tails.keys
  types : g.typePowers.keys = g.typeTails.keys

theorem inStep_empty : InStep {} := ⟨rfl, rfl⟩

namespace InStep

theorem addRule (h : g.InStep) (rule : StatementRule) : (g.addRule rule).InStep :=
  ⟨h.exprs, h.types⟩

theorem addStart (h : g.InStep) (key : String) (start : ExprStart) :
    (g.addStart key start).InStep := ⟨h.exprs, h.types⟩

theorem addTypeStart (h : g.InStep) (key : String) (start : TypeStart) :
    (g.addTypeStart key start).InStep := ⟨h.exprs, h.types⟩

/-- A tail is put into both tables under one key, whether or not the key was there before. -/
theorem addTail (h : g.InStep) (key : String) (power : BindingPower) (tail : ExprTail) :
    (g.addTail key power tail).InStep where
  exprs := by simp only [Grammar.addTail, Table.keys_insert, h.exprs]
  types := h.types

theorem addTypeTail (h : g.InStep) (key : String) (power : BindingPower) (tail : TypeTail) :
    (g.addTypeTail key power tail).InStep where
  exprs := h.exprs
  types := by simp only [Grammar.addTypeTail, Table.keys_insert, h.types]

theorem addScript (h : g.InStep) : g.addScript.InStep := by
  unfold Grammar.addScript
  refine List.foldlRecOn _ _ (InStep.addStart (InStep.addStart ?_ _ _) _ _)
    fun _ hg _ _ => hg.addRule _
  refine List.foldlRecOn _ _ (List.foldlRecOn _ _ (InStep.addTail (InStep.addTail ?_ _ _ _) _ _ _)
    fun _ hg _ _ => hg.addStart _ _) fun _ hg _ _ => hg.addStart _ _
  exact List.foldlRecOn _ _ (List.foldlRecOn _ _ h fun _ hg _ _ => hg.addTail _ _ _)
    fun _ hg _ _ => hg.addTail _ _ _

theorem addTypes (h : g.InStep) : g.addTypes.InStep :=
  (h.addTypeStart "<identifier>" .name).addTypeTail "[" .call .array

/-- The ways to change a grammar keep its tables in step. -/
theorem changed (h : g.InStep) (r : Request) : (Session.changed g r).InStep := by
  cases r with
  | addScript => exact h.addScript
  | addTypes => exact h.addTypes
  | addRule rule => exact h.addRule rule
  | addStart key start => exact h.addStart key start
  | addTail key power tail => exact h.addTail key power tail
  | addTypeStart key start => exact h.addTypeStart key start
  | addTypeTail key power tail => exact h.addTypeTail key power tail
  | _ => exact h

/-- What has a power has a tail. -/
theorem exists_tail (h : g.InStep) {key : String} (hpower : g.powers.get? key ≠ none) :
    ∃ tail, g.tails.get? key = some tail := by
  refine Option.ne_none_iff_exists'.1 fun htail => hpower ?_
  rw [Table.get?_eq_none_iff] at htail ⊢
  rwa [h.exprs]

theorem exists_typeTail (h : g.InStep) {key : String} (hpower : g.typePowers.get? key ≠ none) :
    ∃ tail, g.typeTails.get? key = some tail := by
  refine Option.ne_none_iff_exists'.1 fun htail => hpower ?_
  rw [Table.get?_eq_none_iff] at htail ⊢
  rwa [h.types]

end InStep

theorem inStep_script : script.InStep := inStep_empty.addScript.addTypes

end Grammar

/-! No complaint about a stray token. -/

/-- The words in which a stray token would be reported. -/
def strayMessages : List String := ["unexpected token in expression", "unexpected token in type"]

/-- What begins differently is no such report. -/
theorem notMem_strayMessages {opening : String}
    (h : ∀ text ∈ strayMessages, ¬ opening.toList <+: text.toList) (rest : String) :
    opening ++ rest ∉ strayMessages := by
  intro hmem
  refine h _ hmem ?_
  rw [String.toList_append]
  exact List.prefix_append _ _

theorem expectedSymbol_message (text : String) :
    (Complaint.expectedSymbol text).message ∉ strayMessages := by
  have hopening : "expected '" ++ (text ++ "'") ∉ strayMessages :=
    notMem_strayMessages (by decide) _
  rwa [← String.append_assoc] at hopening

/-- While the tables are in step, no token can be stray. -/
theorem Grammar.Makes.message {g : Grammar} {k : Complaint} (h : g.Makes k) (hg : g.InStep) :
    k.message ∉ strayMessages := by
  cases h with
  | strayInExpression hpower htail =>
    obtain ⟨tail, hsome⟩ := hg.exists_tail hpower
    rw [htail] at hsome
    cases hsome
  | strayInType hpower htail =>
    obtain ⟨tail, hsome⟩ := hg.exists_typeTail hpower
    rw [htail] at hsome
    cases hsome
  | expectedSymbol text => exact expectedSymbol_message text
  | expectedName role => cases role <;> decide
  | _ => decide

theorem Parse.Complains.message {g : Grammar} {α : Type} {p : Parse α} (hp : Complains g p)
    (hg : g.InStep) {c stop : Cursor} {e : Error} (h : p c = .failed e stop) :
    e.message ∉ strayMessages := by
  rw [Error.message, Error.display]
  cases hcause : e.cause with
  | refused k found => exact (hp.at_ c e stop h k found hcause).message hg
  | unrecognised text => exact notMem_strayMessages (by decide) _
  | badNumber text => exact notMem_strayMessages (by decide) _
  | tooLarge size =>
    dsimp only
    rw [String.append_assoc]
    exact notMem_strayMessages (by decide) _

/-- The words of an error that are given with a request. -/
def Request.words? : Request → Option String
  | complaint message | expectKind _ message => some message
  | _ => none

namespace Session
variable {s t : Session} {r : Request}

theorem answer_grammar (s : Session) (r : Request) :
    (s.answer r).2.grammar = s.grammar ∨ (s.answer r).2.grammar = changed s.grammar r := by
  rw [answer]
  cases s.parser r s.cursor with
  | done reply c => cases reply <;> exact .inr rfl
  | failed | endless => exact .inl rfl

theorem Leads.inStep (h : Leads s t) (hs : s.grammar.InStep) : t.grammar.InStep := by
  induction h with
  | refl => exact hs
  | @answer t r _ ih =>
    rcases t.answer_grammar r with hsame | hchanged
    · exact hsame ▸ ih
    · exact hchanged ▸ ih.changed r
  | given _ _ _ ih => exact ih

theorem parser_message (hs : s.grammar.InStep) (hr : r.words? = none) {c stop : Cursor} {e : Error}
    (h : s.parser r c = .failed e stop) : e.message ∉ strayMessages := by
  cases r with
  | complaint | expectKind => cases hr
  | expectSymbol text =>
    have hrun : (expect (·.isSymbol text) (.expectedSymbol text) >>= fun t =>
      (pure (.token t) : Parse Reply)) c = .failed e stop := h
    rw [expect_bind] at hrun
    split at hrun
    · cases hrun
    · cases hrun
      exact expectedSymbol_message text
  | advance acrossLines =>
    cases acrossLines <;> cases h
  | _ =>
    dsimp only [parser] at h
    exact Complains.message inferInstance hs h

end Session

/-- Whatever a session has been asked for, in whatever order and whether or not it failed: if it
began without tables or with those of the language, the keys of the powers are those of the tails,
for expressions and for types. Hence no parser with this grammar reports a stray token, wherever it
is called and whatever expression or type it goes on with. Only a caller who gives the words of an
error can give these. -/
theorem sessions_report_no_stray {g : Grammar} (hg : g = {} ∨ g = .script) {given : List Token}
    {file : String} {s : Session} (h : (Session.start g given file).Leads s) :
    s.grammar.powers.keys = s.grammar.tails.keys ∧
    s.grammar.typePowers.keys = s.grammar.typeTails.keys ∧
    (∀ (t : Session) (request : Request) (c stop : Cursor) (e : Error), t.grammar = s.grammar →
      request.words? = none → t.parser request c = .failed e stop → e.message ∉ strayMessages) ∧
    ∀ (name : String) (c stop : Cursor) (e : Error),
      s.grammar.program name c = .failed e stop → e.message ∉ strayMessages := by
  have hstart : g.InStep := by
    rcases hg with rfl | rfl
    · exact Grammar.inStep_empty
    · exact Grammar.inStep_script
  have hstep := h.inStep hstart
  exact ⟨hstep.exprs, hstep.types,
    fun _ _ _ _ _ hsame hwords hfails => Session.parser_message (hsame ▸ hstep) hwords hfails,
    fun _ _ _ _ hfails => Complains.message inferInstance hstep hfails⟩

/-- Tails that are registered, registered again with the loosest power, and put under the key of a
class of tokens, with a statement that fails in between. -/
theorem sessions_report_no_stray_again :
    let s := (Session.start {} [⟨.name, "a", default⟩, ⟨.symbol, "+", default⟩] "shell").after
      [.addTail "+" .additive .binary, .statement .any, .addStart "<identifier>" .literal,
        .addTail "+" .default .call, .addTypeTail "<identifier>" .call .array]
    let e : Error := ⟨.refused .expectedType (some "a"), default⟩
    s.grammar.powers.keys = s.grammar.tails.keys ∧
    s.grammar.typePowers.keys = s.grammar.typeTails.keys ∧
    s.parser (.typeExpr .default) s.cursor = .failed e s.cursor ∧ e.message ∉ strayMessages := by
  intro s e
  obtain ⟨hexprs, htypes, hmessage, -⟩ :=
    sessions_report_no_stray (.inl rfl) (Session.leads_after _ _ : Session.Leads _ s)
  have herror : (s.parser (.typeExpr .default) s.cursor).error? = some e := by decide +kernel
  have hstop : (s.parser (.typeExpr .default) s.cursor).cursor? = some s.cursor := by decide +kernel
  have hfails := Outcome.eq_failed herror hstop
  exact ⟨hexprs, htypes, hfails, hmessage s _ _ _ _ rfl rfl hfails⟩

end ScriptSyntax
