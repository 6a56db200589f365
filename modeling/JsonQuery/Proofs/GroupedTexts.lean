import JsonQuery.Proofs.DepthLimit
import JsonQuery.Proofs.PlainEvaluation
import JsonQuery.Proofs.WrittenTokens
import JsonQuery.Query

/-! A text in parentheses is an operand that nothing around it can take apart. Its tokens are the
same between the parentheses as alone, they denote the same expression, and whatever continues the
group is applied to that expression as a whole. A pipe between two groups therefore searches with
one text after the other. -/
namespace JsonQuery

/-- The text in parentheses. -/
def parenthesized (text : String) : String :=
  "(" ++ text ++ ")"

/-- Nothing but blank characters. -/
def IsBlank (text : String) : Prop :=
  ∀ c ∈ text.toList, isBlank c = true

/-- The text denotes the expression, unless its depth is refused. -/
def ParsesTo (text : String) (e : Expr) : Prop :=
  Expr.parse text = .ok e ∨
    ∃ position, Expr.parse text = .error (.tooDeep maxExprDepth position)

section Reading

private theorem below_closed (positive : 0 < power) (below : Below power rest)
    (outer : List Token) :
    Below power (rest ++ .symbol .rightParen :: outer) := by
  intro t head
  cases rest with
  | nil =>
    cases head
    exact positive
  | cons u rest => exact below t head

/-- A closing parenthesis ends everything, so that what stands behind it does not matter. -/
theorem reads_closed (outer : List Token) (reads : Reads part taken e rest) :
    Reads part taken e (rest ++ .symbol .rightParen :: outer) := by
  induction reads with
  | operand head tail head_ih tail_ih => exact .operand (by simpa using head_ih) tail_ih
  | stop below => exact .stop (below_closed (Nat.succ_pos _) below outer)
  | step holds link tail link_ih tail_ih => exact .step holds (by simpa using link_ih) tail_ih
  | literal => exact .literal
  | rawString => exact .rawString
  | identifier => exact .identifier
  | quotedIdentifier noCall =>
    rename_i name rest
    refine .quotedIdentifier ?_
    cases rest with
    | nil => simp
    | cons t rest => exact noCall
  | emptyCall => exact .emptyCall
  | call args ih => exact .call ih
  | current => exact .current
  | values tail ih => exact .values ih
  | list items noWildcard ih => exact .list ih noWildcard
  | hash entries ih => exact .hash ih
  | group inner ih => exact .group ih
  | not operand ih => exact .not ih
  | reference operand ih => exact .reference ih
  | leadingSuffix suffix ih => exact .leadingSuffix ih
  | followingSuffix suffix ih => exact .followingSuffix ih
  | dotValues tail ih => exact .dotValues ih
  | dot member noWildcard ih => exact .dot ih noWildcard
  | connective joins operand ih => exact .connective joins ih
  | flatten tail ih => exact .flatten ih
  | filter predicate tail predicate_ih tail_ih =>
    exact .filter (by simpa using predicate_ih) tail_ih
  | index => exact .index
  | slice nonzero tail ih => exact .slice nonzero ih
  | each tail ih => exact .each ih
  | bare below => exact .bare (below_closed (by decide) below outer)
  | inner opens operand ih => exact .inner opens ih
  | innerDot member ih => exact .innerDot ih
  | named starts operand ih => exact .named starts ih
  | memberList items ih => exact .memberList ih
  | memberHash entries ih => exact .memberHash ih
  | lastItem item ih => exact .lastItem ih
  | nextItem item others item_ih others_ih => exact .nextItem (by simpa using item_ih) others_ih
  | lastEntry key value ih => exact .lastEntry key ih
  | nextEntry key value others value_ih others_ih =>
    exact .nextEntry key (by simpa using value_ih) others_ih

/-- Parts that do not leave the current value as it is. -/
def Part.Solid : Part → Prop
  | .continuing _ left => left ≠ .identity
  | .projection _ => False
  | _ => True

private theorem reads_solid (reads : Reads part taken e rest) (solid : part.Solid) :
    e ≠ .identity := by
  have subscript (left right : Expr) (something : right ≠ .identity) :
      Rules.subscript left right ≠ .identity := by
    cases left <;> simp [Rules.subscript, something]
  induction reads with
  | operand head tail head_ih tail_ih => exact tail_ih (head_ih trivial)
  | stop below => exact solid
  | step holds link tail link_ih tail_ih => exact tail_ih (link_ih trivial)
  | list items noWildcard ih | hash entries ih | group inner ih | leadingSuffix suffix ih
  | followingSuffix suffix ih | named starts operand ih | memberList items ih
  | memberHash entries ih => exact ih trivial
  | index => exact subscript _ _ (by simp)
  | connective joins operand ih =>
    rcases connective_cases joins with ⟨-, rfl⟩ | ⟨-, rfl⟩ | ⟨-, rfl⟩ | ⟨op, -, rfl⟩ <;> simp
  | bare | inner | innerDot => exact solid.elim
  | _ => simp

/-- A group is an operand of any binding power. -/
theorem group_operand (inner : Reads (.operand 0) taken e []) (below : Below (binding + 1) rest) :
    Reads (.operand binding) (.symbol .leftParen :: (taken ++ [.symbol .rightParen])) e rest := by
  have head :
      Reads .leading (.symbol .leftParen :: (taken ++ [.symbol .rightParen])) e ([] ++ rest) :=
    .group (by simpa using reads_closed rest inner)
  simpa using Reads.operand head (.stop below)

/-- A group is continued as a whole. -/
theorem group_followed (inner : Reads (.operand 0) taken a []) (holds : 0 < t.bindingPower)
    (link : Reads (.following a) (t :: more) e []) :
    Reads (.operand 0)
      (.symbol .leftParen :: (taken ++ [.symbol .rightParen]) ++ t :: more) e [] := by
  have head : Reads .leading (.symbol .leftParen :: (taken ++ [.symbol .rightParen])) a
      (t :: more ++ []) := .group (by simpa using reads_closed (t :: more) inner)
  have tail : Reads (.continuing 0 a) (t :: (more ++ [])) e [] :=
    .step holds (by simpa using link) (.stop nofun)
  rw [List.append_nil] at tail
  exact .operand head tail

end Reading

section Lexing

private theorem apart_close (t : Token) (more : List Char) : t.Apart (')' :: more) := by
  have stops (inside : Char → Bool) (outside : inside ')' = false) :
      Stops inside (')' :: more) := by
    intro c head
    cases head
    exact outside
  cases t with
  | identifier name => exact ⟨stops _ rfl, rfl⟩
  | number n => exact stops _ rfl
  | symbol s =>
    cases s with
    | comparator op => cases op <;> rfl
    | _ => rfl
  | _ => trivial

private theorem symbol_lexes (s : Symbol) (found : symbol? (s.text.toList ++ more) = some s)
    (others : Lexes more tokens) : Lexes (s.text.toList ++ more) (.symbol s :: tokens) :=
  .token (.symbol found) others

private theorem group_lexes (lexes : Lexes cs tokens) (behind : Lexes more others) :
    Lexes ('(' :: (cs ++ ')' :: more))
      (.symbol .leftParen :: (tokens ++ .symbol .rightParen :: others)) := by
  have close : Lexes (')' :: more) (.symbol .rightParen :: others) :=
    symbol_lexes .rightParen rfl behind
  have inner := lexes_append lexes (fun t _ => apart_close t more) close
  exact symbol_lexes .leftParen rfl inner

private theorem lexes_none (lexes : Lexes cs tokens) (none : tokens = []) :
    ∀ c ∈ cs, isBlank c = true := by
  induction lexes with
  | nil => exact nofun
  | blank blank others ih =>
    rintro c (_ | ⟨_, member⟩)
    · exact blank
    · exact ih none c member
  | token => cases none

end Lexing

private theorem lexes_parses (lexes : Lexes text.toList tokens)
    (reads : Reads (.operand 0) tokens e []) :
    ParsesTo text e := by
  obtain ⟨s, lexed, rfl⟩ := lexes_text lexes
  exact Expr.reads_parse lexed reads

private theorem parsed_reads (parsed : Expr.parse text = .ok e) (ink : ¬IsBlank text) :
    ∃ tokens, Lexes text.toList tokens ∧ Reads (.operand 0) tokens e [] := by
  obtain ⟨s, lexed, ⟨none, -⟩ | reads⟩ := Expr.parse_within_reads parsed
  · exact absurd (lexes_none (text_lexes lexed) none) ink
  · exact ⟨s.tokens, text_lexes lexed, reads⟩

/-- A text in parentheses and what stands behind it. -/
theorem parenthesized_parses (lexes : Lexes text.toList tokens)
    (inner : Reads (.operand 0) tokens a []) (behind : Lexes more.toList (t :: others))
    (holds : 0 < t.bindingPower) (link : Reads (.following a) (t :: others) e []) :
    ParsesTo (parenthesized text ++ more) e := by
  refine lexes_parses ?_ (group_followed inner holds link)
  simpa [parenthesized] using group_lexes lexes behind

namespace Expr

private theorem parse_parenthesized_alone (lexes : Lexes text.toList tokens)
    (inner : Reads (.operand 0) tokens a []) : ParsesTo (parenthesized text) a := by
  refine lexes_parses ?_ (group_operand inner nofun)
  simpa [parenthesized] using group_lexes lexes .nil

private theorem parse_parenthesized_connective (joins : (Token.symbol s).connective? = some build)
    (first : Lexes A.toList front) (left : Reads (.operand 0) front a [])
    (second : Lexes B.toList back) (right : Reads (.operand 0) back b []) :
    ParsesTo (parenthesized A ++ " " ++ s.text ++ " " ++ parenthesized B) (build a b) := by
  have behind : Lexes (" " ++ s.text ++ " " ++ parenthesized B).toList
      (.symbol s :: .symbol .leftParen :: (back ++ [.symbol .rightParen])) := by
    have group := group_lexes second .nil
    have symbol := symbol_lexes s (symbol_before_blank s _) (.blank rfl group)
    simpa [parenthesized] using Lexes.blank (c := ' ') rfl symbol
  have holds : 0 < (Token.symbol s).bindingPower := by
    rcases connective_cases joins with ⟨same, -⟩ | ⟨same, -⟩ | ⟨same, -⟩ | ⟨op, same, -⟩ <;>
      simp [same, Token.bindingPower]
  have link : Reads (.following a)
      (.symbol s :: .symbol .leftParen :: (back ++ [.symbol .rightParen])) (build a b) [] :=
    .connective joins (group_operand right (by simp [Below]))
  simpa [String.append_assoc] using parenthesized_parses first left behind holds link

private theorem parse_parenthesized_index (n : Int64) (lexes : Lexes text.toList tokens)
    (inner : Reads (.operand 0) tokens a []) :
    ParsesTo (parenthesized text ++ "[" ++ String.ofList (intDigits n.toInt) ++ "]")
      (.bracket a (.index n)) := by
  have stops : Stops Char.isDigit [']'] := by
    intro c head
    cases head
    rfl
  have close : Lexes [']'] [.symbol .rightBracket] := symbol_lexes .rightBracket rfl .nil
  have number := Lexes.token (number_spells n stops) close
  have behind : Lexes ("[" ++ String.ofList (intDigits n.toInt) ++ "]").toList
      [.symbol .leftBracket, .number n, .symbol .rightBracket] := by
    obtain ⟨first, others, same, textual⟩ := number_first n.toInt
    have opens : symbol? ('[' :: (intDigits n.toInt ++ [']'])) = some .leftBracket := by
      have apart (c : Char) (other : isTextual c = false) : first ≠ c := by
        rintro rfl
        rw [textual] at other
        cases other
      simp [same, symbol?, apart ']' rfl, apart '?' rfl]
    have bracket : Lexes ('[' :: (intDigits n.toInt ++ [']']))
        [.symbol .leftBracket, .number n, .symbol .rightBracket] :=
      symbol_lexes .leftBracket opens number
    simpa using bracket
  have link : Reads (.following a) [.symbol .leftBracket, .number n, .symbol .rightBracket]
      (.bracket a (.index n)) [] := by
    rw [← subscript_bracket a _ (reads_solid inner trivial)]
    exact .followingSuffix .index
  simpa [String.append_assoc] using parenthesized_parses lexes inner behind (by decide) link

private theorem parse_parenthesized_each (lexes : Lexes text.toList tokens)
    (inner : Reads (.operand 0) tokens a []) :
    ParsesTo (parenthesized text ++ "[*]") (.eachItem a .identity) := by
  have behind : Lexes "[*]".toList
      [.symbol .leftBracket, .symbol .star, .symbol .rightBracket] :=
    symbol_lexes .leftBracket rfl (symbol_lexes .star rfl (symbol_lexes .rightBracket rfl .nil))
  exact parenthesized_parses lexes inner behind (by decide) (.followingSuffix (.each (.bare nofun)))

private theorem parse_parenthesized_flatten (lexes : Lexes text.toList tokens)
    (inner : Reads (.operand 0) tokens a []) :
    ParsesTo (parenthesized text ++ "[]") (.flatten a .identity) := by
  have behind : Lexes "[]".toList [.symbol .flatten] := symbol_lexes .flatten rfl .nil
  exact parenthesized_parses lexes inner behind (by decide)
    (.followingSuffix (.flatten (.bare nofun)))

private theorem parse_parenthesized_member (isName : IsName name.toList)
    (lexes : Lexes text.toList tokens)
    (inner : Reads (.operand 0) tokens a []) :
    ParsesTo (parenthesized text ++ "." ++ name) (.dot a (.field name)) := by
  have spells : Spells name.toList (.identifier name) [] := by
    have noCall : opensCall [] = false := rfl
    simpa using Spells.identifier isName (by simp [Stops]) noCall
  have behind : Lexes ("." ++ name).toList [.symbol .dot, .identifier name] := by
    have named : Lexes name.toList [.identifier name] := by simpa using Lexes.token spells .nil
    rw [String.toList_append]
    exact symbol_lexes .dot rfl named
  have head : Reads .leading [.identifier name] (.field name) ([] ++ []) := .identifier
  have operand : Reads (.operand 40) [.identifier name] (.field name) [] :=
    .operand head (.stop nofun)
  have link : Reads (.following a) [.symbol .dot, .identifier name] (.dot a (.field name)) [] :=
    .dot (.named trivial operand) (by simp)
  simpa [String.append_assoc] using parenthesized_parses lexes inner behind (by decide) link

/-- An expression that the parser returns is evaluated inside another as it is alone: neither
evaluation comes near the limit. -/
theorem eval_inside (parsed : Expr.parse text = .ok e) (order : ObjectOrder) (v : Value) :
    e.eval (Options.settings ⟨order, .builtins⟩) 1 v = e.evaluate ⟨order, .builtins⟩ v := by
  have short := (parse_depth_exact text).1 e parsed |>.2
  have fits (depth : Nat) (shallow : depth ≤ 1) : ∀ limit,
      (Options.settings ⟨order, .builtins⟩).limit = some limit → depth + e.height ≤ limit := by
    rintro _ ⟨⟩
    have within : e.height ≤ 128 := short
    simp only [maxEvalDepth]
    omega
  have inside := (eval_plain Library.conduct (fits 1 (Nat.le_refl 1)) 0 v).1
  have alone := (eval_plain Library.conduct (fits 0 (Nat.zero_le 1)) 0 v).1
  exact inside.trans alone.symm

private theorem evaluate_pipe (parsedA : Expr.parse A = .ok a) (parsedB : Expr.parse B = .ok b)
    (order : ObjectOrder) (document : Value) :
    (Expr.pipe a b).evaluate ⟨order, .builtins⟩ document =
      a.evaluate ⟨order, .builtins⟩ document >>= b.evaluate ⟨order, .builtins⟩ := by
  have unfolded : (Expr.pipe a b).evaluate ⟨order, .builtins⟩ document =
      a.eval (Options.settings ⟨order, .builtins⟩) 1 document >>=
        b.eval (Options.settings ⟨order, .builtins⟩) 1 := by
    rw [evaluate, eval]
    rfl
  rw [unfolded, eval_inside parsedA]
  exact bind_congr fun value => eval_inside parsedB order value

end Expr

private theorem Query.search_parsed {text : String} (parsed : Expr.parse text = .ok e) (o : Options)
    (document : Value) :
    Query.search o text document = (e.evaluate o document).mapError .eval := by
  simp only [Query.search, Query.compile, parsed]
  rfl

/-- A search with two groups and a pipe between them is a search with the second text on what a
search with the first has found. -/
theorem Query.search_piped {text : String} (parsedA : Expr.parse A = .ok a)
    (parsedB : Expr.parse B = .ok b) (piped : Expr.parse text = .ok (.pipe a b))
    (order : ObjectOrder) (document : Value) :
    Query.search ⟨order, .builtins⟩ text document =
      Query.search ⟨order, .builtins⟩ A document >>= Query.search ⟨order, .builtins⟩ B := by
  rw [search_parsed piped, search_parsed parsedA, Expr.evaluate_pipe parsedA parsedB]
  cases a.evaluate ⟨order, .builtins⟩ document with
  | error e => rfl
  | ok value => exact (search_parsed parsedB _ value).symm

/-- A text in parentheses is one operand, whatever stands behind it: a connective and another group,
an index, a wildcard, a flattening or a name behind a dot. A pipe between two such texts searches
with one after the other. -/
theorem Expr.parse_parenthesized (parsedA : Expr.parse A = .ok a) (inkA : ¬IsBlank A)
    (parsedB : Expr.parse B = .ok b) (inkB : ¬IsBlank B) :
    ParsesTo (parenthesized A) a ∧
    (∀ s build, (Token.symbol s).connective? = some build →
      ParsesTo (parenthesized A ++ " " ++ s.text ++ " " ++ parenthesized B) (build a b)) ∧
    (∀ n : Int64, ParsesTo (parenthesized A ++ "[" ++ String.ofList (intDigits n.toInt) ++ "]")
      (.bracket a (.index n))) ∧
    ParsesTo (parenthesized A ++ "[*]") (.eachItem a .identity) ∧
    ParsesTo (parenthesized A ++ "[]") (.flatten a .identity) ∧
    (∀ name, IsName name.toList →
      ParsesTo (parenthesized A ++ "." ++ name) (.dot a (.field name))) ∧
    ∀ order document e, Expr.parse (parenthesized A ++ " | " ++ parenthesized B) = .ok e →
      Query.search ⟨order, .builtins⟩ (parenthesized A ++ " | " ++ parenthesized B) document =
        Query.search ⟨order, .builtins⟩ A document >>= Query.search ⟨order, .builtins⟩ B := by
  obtain ⟨front, first, left⟩ := parsed_reads parsedA inkA
  obtain ⟨back, second, right⟩ := parsed_reads parsedB inkB
  refine ⟨parse_parenthesized_alone first left, ?connectives,
    fun n => parse_parenthesized_index n first left, parse_parenthesized_each first left,
    parse_parenthesized_flatten first left,
    fun name isName => parse_parenthesized_member isName first left, ?searches⟩
  case connectives =>
    intro s build joins
    exact parse_parenthesized_connective joins first left second right
  case searches =>
    intro order document e parsed
    have pipe := parse_parenthesized_connective (s := .pipe) rfl first left second right
    have same : parenthesized A ++ " " ++ Symbol.pipe.text ++ " " ++ parenthesized B =
        parenthesized A ++ " | " ++ parenthesized B := by
      simp [Symbol.text, String.append_assoc]
    rw [same] at pipe
    obtain piped | ⟨position, failed⟩ := pipe
    · exact Query.search_piped parsedA parsedB piped order document
    · rw [failed] at parsed
      cases parsed

theorem Expr.parse_parenthesized_or :
    Expr.parse "a || b" = .ok (.or (.field "a") (.field "b")) ∧ ¬IsBlank "a || b" ∧
      Expr.parse "c" = .ok (.field "c") ∧ ¬IsBlank "c" ∧
      ParsesTo (parenthesized "a || b" ++ "[*]")
        (.eachItem (.or (.field "a") (.field "b")) .identity) := by
  have parsedA : Expr.parse "a || b" = .ok (.or (.field "a") (.field "b")) := by cbv
  have inkA : ¬IsBlank "a || b" := fun blank => absurd (blank 'a' (by decide)) (by decide)
  have parsedB : Expr.parse "c" = .ok (.field "c") := by cbv
  have inkB : ¬IsBlank "c" := fun blank => absurd (blank 'c' (by decide)) (by decide)
  obtain ⟨-, -, -, each, -⟩ := parse_parenthesized parsedA inkA parsedB inkB
  exact ⟨parsedA, inkA, parsedB, inkB, each⟩

end JsonQuery
