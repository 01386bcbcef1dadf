import ScriptSyntax.Parse.Program

/-! A session asks for one step of parsing at a time and may change the grammar between two steps.
After an error it goes on from where the cursor was left. -/
namespace ScriptSyntax

/-- The entries of a grammar by name, and the rules that apply to one token. -/
structure Listing where
  rules : List String
  applying : List String
  starts : List String
  tails : List String
  powers : List String
  typeStarts : List String
  typeTails : List String
  typePowers : List String
  deriving DecidableEq, Repr

/-- Texts in the order of their code points. -/
def sortedTexts (texts : List String) : List String := texts.mergeSort fun a b => decide (a ≤ b)

/-- The keys of a table of powers, each with its power. -/
def Table.powerLines (t : Table BindingPower) : List String :=
  sortedTexts (t.entries.map fun (key, power) => key ++ " " ++ power.name)

/-- Rules are listed as they are tried, keys in the order of their code points. -/
def Grammar.listing (g : Grammar) (t : Token) : Listing where
  rules := g.rules.map (·.name)
  applying := (g.rules.filter (·.test t)).map (·.name)
  starts := sortedTexts g.starts.keys
  tails := sortedTexts g.tails.keys
  powers := g.powers.powerLines
  typeStarts := sortedTexts g.typeStarts.keys
  typeTails := sortedTexts g.typeTails.keys
  typePowers := g.typePowers.powerLines

/-- What a session may be asked for. -/
inductive Request where
  | current
  | currentKind
  | atToken
  | position
  | lastEnd
  | advance (acrossLines : Bool)
  | skip (kind : TokenKind)
  | atSymbol (text : String)
  | acceptSymbol (text : String)
  | atKeyword (word : Keyword)
  | acceptKeyword (word : Keyword)
  | acceptKind (kind : TokenKind)
  | expectKind (kind : TokenKind) (message : String)
  | expectSymbol (text : String)
  /-- The error that a complaint about the current token would be. -/
  | complaint (message : String)
  | block
  | parameters
  | statement (form : StatementForm)
  | expr (power : BindingPower)
  | exprStart (start : ExprStart)
  /-- A tail after the latest expression. -/
  | exprTail (tail : ExprTail) (power : BindingPower)
  /-- The latest expression with a name. -/
  | named (name : String)
  | typeExpr (power : BindingPower)
  | resultType
  | typeStart (start : TypeStart)
  /-- A tail after the latest type. -/
  | typeTail (tail : TypeTail)
  | addScript
  | addTypes
  | addRule (rule : StatementRule)
  | addStart (key : String) (start : ExprStart)
  | addTail (key : String) (power : BindingPower) (tail : ExprTail)
  | addTypeStart (key : String) (start : TypeStart)
  | addTypeTail (key : String) (power : BindingPower) (tail : TypeTail)
  | listing

/-- What a session answers. -/
inductive Reply where
  | nothing
  | token (t : Token)
  | kind (k : TokenKind)
  | flag (b : Bool)
  | count (n : Nat)
  | position (p : Position)
  | error (e : Error)
  | block (b : Block)
  | parameters (ps : List Parameter)
  | statement (s : Statement)
  | expr (e : Expr)
  | typeExpr (a : TypeExpr)
  | listing (l : Listing)
  | endless
  deriving Repr

structure Session where
  grammar : Grammar
  cursor : Cursor
  /-- The latest expression. -/
  expr : Expr
  /-- The latest type. -/
  typeExpr : TypeExpr

namespace Session

/-- A session at the beginning of some tokens. Before the first expression there is an unassigned
one at the beginning of the source, and before the first type `any`. -/
def start (grammar : Grammar) (tokens : List Token) (file : String) : Session :=
  ⟨grammar, .start tokens file, .unassigned (Position.empty ⟨0, file⟩), .any⟩

/-- The parser that answers a request. Requests that change the grammar move nothing. -/
def parser (s : Session) : Request → Parse Reply
  | .current => return .token (← Parse.current)
  | .currentKind => return .kind (← Parse.current).kind
  | .atToken => return .flag (← Parse.atToken)
  | .position => return .position (← Parse.current).span.start
  | .lastEnd => return .position (← Parse.lastEnd)
  | .advance true => return .token (← Parse.advanceLine)
  | .advance false => return .token (← Parse.advance)
  | .skip kind => return .count (← Parse.skip kind)
  | .atSymbol text => return .flag (← Parse.atSymbol text)
  | .acceptSymbol text => return .flag (← Parse.acceptSymbol text)
  | .atKeyword word => return .flag (← Parse.atKeyword word)
  | .acceptKeyword word => return .flag (← Parse.acceptKeyword word)
  | .acceptKind kind => return .flag (← Parse.acceptKind kind)
  | .expectKind kind message => return .token (← Parse.expectKind kind (.other message))
  | .expectSymbol text => return .token (← Parse.expectSymbol text)
  | .complaint message => Parse.complain (.other message)
  | .block => return .block (← s.grammar.readers.block)
  | .parameters => return .parameters (← s.grammar.readers.parameters)
  | .statement form => return .statement (← form.read s.grammar.readers)
  | .expr power => return .expr (← s.grammar.readers.expr power)
  | .exprStart start => return .expr (← start.read s.grammar.readers)
  | .exprTail tail power => return .expr (← tail.read s.grammar.readers s.expr power)
  | .named name => return .expr (s.expr.named name)
  | .typeExpr power => return .typeExpr (← s.grammar.typeExpr power)
  | .resultType => return .typeExpr (← s.grammar.readers.resultType)
  | .typeStart start => return .typeExpr (← start.read)
  | .typeTail tail => return .typeExpr (← tail.read s.typeExpr)
  | .listing => return .listing (s.grammar.listing (← Parse.current))
  | .addScript | .addTypes | .addRule _ | .addStart _ _ | .addTail _ _ _
  | .addTypeStart _ _ | .addTypeTail _ _ _ => return .nothing

/-- The grammar after a request. -/
def changed (g : Grammar) : Request → Grammar
  | .addScript => g.addScript
  | .addTypes => g.addTypes
  | .addRule rule => g.addRule rule
  | .addStart key start => g.addStart key start
  | .addTail key power tail => g.addTail key power tail
  | .addTypeStart key start => g.addTypeStart key start
  | .addTypeTail key power tail => g.addTypeTail key power tail
  | _ => g

/-- Answers a request. An expression or a type is kept for later requests. -/
def answer (s : Session) (request : Request) : Reply × Session :=
  match s.parser request s.cursor with
  | .done reply cursor =>
    let s := { s with cursor, grammar := changed s.grammar request }
    match reply with
    | .expr e => (reply, { s with expr := e })
    | .typeExpr a => (reply, { s with typeExpr := a })
    | _ => (reply, s)
  | .failed e cursor => (.error e, { s with cursor })
  | .endless => (.endless, s)

/-- The session after some requests. -/
def after (s : Session) (requests : List Request) : Session :=
  requests.foldl (fun s request => (s.answer request).2) s

end Session
end ScriptSyntax
