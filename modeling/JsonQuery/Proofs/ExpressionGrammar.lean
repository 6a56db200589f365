import JsonQuery.Proofs.Reading

/-! The grammar of expressions as the documentation gives it, over tokens. It is ambiguous and knows
no binding powers, so it says which texts are expressions and not which expression a text is. -/
namespace JsonQuery

/-- The phrases of the grammar. Elements and entries stand without what encloses them. -/
inductive Phrase where
  | expression
  /-- An identifier or a call, at the beginning of an expression or behind a dot. -/
  | name
  /-- What may stand behind a dot. -/
  | member
  /-- The forms that begin an expression or are applied to one. -/
  | suffix
  | list
  | hash
  | elements
  | entries

/-- The grammar derives these tokens from the phrase. -/
inductive Derives : Phrase → List Token → Prop where
  | literal : Derives .expression [.literal value]
  | rawString : Derives .expression [.rawString text]
  | current : Derives .expression [.symbol .current]
  | values : Derives .expression [.symbol .star]
  | named (name : Derives .name w) : Derives .expression w
  | leading (suffix : Derives .suffix w) : Derives .expression w
  | listed (list : Derives .list w) : Derives .expression w
  | hashed (hash : Derives .hash w) : Derives .expression w
  | group (inner : Derives .expression w) :
      Derives .expression (.symbol .leftParen :: (w ++ [.symbol .rightParen]))
  | not (operand : Derives .expression w) : Derives .expression (.symbol .not :: w)
  | reference (operand : Derives .expression w) : Derives .expression (.symbol .reference :: w)
  | dot (left : Derives .expression w) (member : Derives .member v) :
      Derives .expression (w ++ .symbol .dot :: v)
  | operator (left : Derives .expression w) (joins : t.connective?.isSome)
      (right : Derives .expression v) : Derives .expression (w ++ t :: v)
  | applied (left : Derives .expression w) (suffix : Derives .suffix v) :
      Derives .expression (w ++ v)
  | identifier : Derives .name [.identifier text]
  | quotedIdentifier : Derives .name [.quotedIdentifier text]
  | emptyCall : Derives .name [.functionName text, .symbol .leftParen, .symbol .rightParen]
  | call (args : Derives .elements w) :
      Derives .name (.functionName text :: .symbol .leftParen :: (w ++ [.symbol .rightParen]))
  | memberName (name : Derives .name w) : Derives .member w
  | memberValues : Derives .member [.symbol .star]
  | memberList (list : Derives .list w) : Derives .member w
  | memberHash (hash : Derives .hash w) : Derives .member w
  | flatten : Derives .suffix [.symbol .flatten]
  | filter (test : Derives .expression w) :
      Derives .suffix (.symbol .filter :: (w ++ [.symbol .rightBracket]))
  | index : Derives .suffix [.symbol .leftBracket, .number n, .symbol .rightBracket]
  | slice (nonzero : step.join ≠ some 0) :
      Derives .suffix
        (.symbol .leftBracket :: (sliceTokens start stop step ++ [.symbol .rightBracket]))
  | each : Derives .suffix [.symbol .leftBracket, .symbol .star, .symbol .rightBracket]
  | list (elements : Derives .elements w) :
      Derives .list (.symbol .leftBracket :: (w ++ [.symbol .rightBracket]))
  | hash (entries : Derives .entries w) :
      Derives .hash (.symbol .leftBrace :: (w ++ [.symbol .rightBrace]))
  | lastElement (element : Derives .expression w) : Derives .elements w
  | nextElement (element : Derives .expression w) (others : Derives .elements v) :
      Derives .elements (w ++ .symbol .comma :: v)
  | lastEntry (key : t.key?.isSome) (value : Derives .expression w) :
      Derives .entries (t :: .symbol .colon :: w)
  | nextEntry (key : t.key?.isSome) (value : Derives .expression w)
      (others : Derives .entries v) :
      Derives .entries (t :: .symbol .colon :: (w ++ .symbol .comma :: v))

/-- Tokens with which an operand may end. -/
def Token.EndsOperand : Token → Prop
  | .literal _ => True
  | .rawString _ => True
  | .identifier _ => True
  | .quotedIdentifier _ => True
  | .symbol .star => True
  | .symbol .flatten => True
  | .symbol .rightBracket => True
  | .symbol .rightBrace => True
  | .symbol .rightParen => True
  | .symbol .current => True
  | _ => False

/-- If a bracket comes next, it opens an index, a slice or `[*]`. -/
def Subscripts : List Token → Prop
  | .symbol .leftBracket :: .number _ :: _ => True
  | .symbol .leftBracket :: .symbol .colon :: _ => True
  | .symbol .leftBracket :: .symbol .star :: .symbol .rightBracket :: _ => True
  | .symbol .leftBracket :: _ => False
  | _ => True

/-- Every bracket directly behind an operand opens an index, a slice or `[*]`. -/
def BracketsApply : List Token → Prop
  | [] => True
  | t :: more => (t.EndsOperand → Subscripts more) ∧ BracketsApply more

theorem applies_of_append (before : List Token) (applies : BracketsApply (before ++ after)) :
    BracketsApply after := by
  induction before with
  | nil => exact applies
  | cons t more rest => exact rest applies.2

private theorem subscripts_append (subscripts : Subscripts (t :: w)) (after : List Token) :
    Subscripts (t :: (w ++ after)) := by
  unfold Subscripts at subscripts ⊢
  split at subscripts <;> simp_all

private theorem applies_append (first : BracketsApply before) (second : BracketsApply after)
    (joint : Subscripts after) : BracketsApply (before ++ after) := by
  induction before with
  | nil => exact second
  | cons t more rest =>
    refine ⟨fun ends => ?_, rest first.2⟩
    cases more with
    | nil => exact joint
    | cons u more => exact subscripts_append (first.1 ends) after

/-- Subscripts are the only brackets among the forms that are applied to an operand. -/
theorem suffix_subscripts (suffix : Derives .suffix w) : Subscripts w := by
  cases suffix with
  | @slice step start stop nonzero => cases step <;> cases start <;> trivial
  | _ => trivial

/-- A symbol that neither ends an operand nor opens a bracket separates what stands around it. -/
theorem applies_between {symbol : Symbol} (quiet : ¬ (Token.symbol symbol).EndsOperand)
    (noBracket : symbol ≠ .leftBracket) (first : BracketsApply before)
    (second : BracketsApply after) : BracketsApply (before ++ .symbol symbol :: after) := by
  apply applies_append first
  · exact ⟨fun ends => (quiet ends).elim, second⟩
  · cases symbol <;> trivial

/-- What encloses a phrase does not change how its brackets are read. -/
theorem applies_closed {symbol : Symbol} (noBracket : symbol ≠ .leftBracket)
    (inner : BracketsApply w) : BracketsApply (w ++ [.symbol symbol]) := by
  apply applies_append inner
  · exact ⟨fun _ => trivial, trivial⟩
  · cases symbol <;> trivial

private theorem connective_quiet {t : Token} (joins : t.connective?.isSome) :
    ∃ symbol, t = .symbol symbol ∧ ¬ (Token.symbol symbol).EndsOperand ∧ symbol ≠ .leftBracket := by
  obtain ⟨build, joins⟩ := Option.isSome_iff_exists.mp joins
  rcases connective_cases joins with ⟨rfl, rfl⟩ | ⟨rfl, rfl⟩ | ⟨rfl, rfl⟩ | ⟨op, rfl, rfl⟩ <;>
    exact ⟨_, rfl, by simp [Token.EndsOperand], by simp⟩

private theorem slice_applies (start stop : Option Int64) (step : Option (Option Int64)) :
    BracketsApply (sliceTokens start stop step) := by
  obtain _ | start := start <;> obtain _ | stop := stop <;> obtain _ | _ | step := step <;>
    simp [sliceTokens, boundTokens, BracketsApply, Subscripts, Token.EndsOperand]

/-- The grammar lets a list stand behind a dot only, and all other brackets be applied. -/
theorem derives_applies (derives : Derives phrase w) : BracketsApply w := by
  induction derives with
  | literal | rawString | current | values | identifier | quotedIdentifier | emptyCall
    | memberValues | flatten | index | each =>
    simp [BracketsApply, Subscripts, Token.EndsOperand]
  | named _ inner | leading _ inner | listed _ inner | hashed _ inner | memberName _ inner
    | memberList _ inner | memberHash _ inner | lastElement _ inner =>
    exact inner
  | not _ inner | reference _ inner => exact ⟨False.elim, inner⟩
  | group _ inner | filter _ inner | list _ inner | hash _ inner =>
    exact ⟨False.elim, applies_closed (by simp) inner⟩
  | slice => exact ⟨False.elim, applies_closed (by simp) (slice_applies ..)⟩
  | call _ inner => exact ⟨False.elim, False.elim, applies_closed (by simp) inner⟩
  | dot _ _ first second => exact applies_between (by simp [Token.EndsOperand]) (by simp) first second
  | nextElement _ _ first second =>
    exact applies_between (by simp [Token.EndsOperand]) (by simp) first second
  | operator _ joins _ first second =>
    obtain ⟨symbol, rfl, quiet, noBracket⟩ := connective_quiet joins
    exact applies_between quiet noBracket first second
  | applied _ suffix first second => exact applies_append first second (suffix_subscripts suffix)
  | lastEntry _ _ inner => exact ⟨fun _ => trivial, False.elim, inner⟩
  | nextEntry _ _ _ first second =>
    exact ⟨fun _ => trivial, False.elim,
      applies_between (by simp [Token.EndsOperand]) (by simp) first second⟩

end JsonQuery
