import JsonQuery.Proofs.ReadingCompleteness
import JsonQuery.Proofs.ReadingSoundness

/-! The limit on the depth of expressions is exact. Every expression that passes it is no taller
than the limit and the same that is read without one. A tree that is taller is refused, for its
depth and for no other reason; a tree that is not is returned, as long as the groups around its
parts leave it room. -/
namespace JsonQuery.Expr
open Parse Rules

/-- The height that a limit allows. -/
def Within (limit : Option Nat) (e : Expr) : Prop :=
  ∀ n, limit = some n → e.height ≤ n

private theorem bounded_within (ran : bounded limit offset e before = (.ok result, after)) :
    Within limit result := by
  rintro n rfl
  by_cases deep : e.deeperThan n
  · simp [bounded, deep] at ran
  · have same := (bounded_ok ran).1
    rw [same, ← within_limit_iff]
    simpa using deep

/-- A continuation is measured before it is continued, so the last one is within the limit if the
first expression is. -/
theorem continued_within (budget : Nat) : ∀ left before, Within limit left →
    continued limit sub binding budget left before = (.ok e, after) → Within limit e := by
  induction budget with
  | zero =>
    intro left before within ran
    cases ran
    exact within
  | succ budget ih =>
    intro left before within ran
    obtain ⟨_ | ⟨⟨t, offset⟩, more⟩, finish⟩ := before
    · cases ran
      exact within
    · simp only [continued, peek_bind, List.head?_cons, Option.map_some] at ran
      split at ran
      · simp only [position_bind, advance_bind, tail_cons] at ran
        obtain ⟨next, middle, -, ran⟩ := bind_ok.mp ran
        obtain ⟨checked, last, ranBound, ran⟩ := bind_ok.mp ran
        exact ih _ _ (bounded_within ranBound) ran
      · cases ran
        exact within

private theorem reader_within (budget : Nat)
    (ran : reader limit budget nesting binding before = (.ok e, after)) : Within limit e := by
  cases budget with
  | zero =>
    obtain ⟨done, middle, -, failed⟩ := bind_ok.mp ran
    exact absurd failed (fail_here_not_ok _)
  | succ budget =>
    obtain ⟨done, middle, ranGuard, ran⟩ := bind_ok.mp ran
    obtain rfl := guard_nesting_ok ranGuard
    obtain ⟨_ | ⟨⟨t, offset⟩, more⟩, finish⟩ := before
    · exact absurd ran (fail_here_not_ok _)
    · simp only [take_bind, List.head?_cons, tail_cons] at ran
      obtain ⟨left, middle, -, ran⟩ := bind_ok.mp ran
      obtain ⟨checked, last, ranBound, ran⟩ := bind_ok.mp ran
      exact continued_within _ _ _ (bounded_within ranBound) ran

/-- What passes a limit is within it. The empty text denotes one node, so the limit allows one. -/
theorem parse_height_le (allowed : 0 < n) (parsed : parseWithin (some n) text = .ok e) :
    e.height ≤ n := by
  unfold parseWithin at parsed
  split at parsed
  · cases parsed
  · rename_i s lexed
    obtain ⟨_ | ⟨placed, more⟩, finish⟩ := s
    · cases parsed
      exact allowed
    · have ran : readAll (some n) ⟨placed :: more, finish⟩ =
          (.ok e, (readAll (some n) ⟨placed :: more, finish⟩).2) := Prod.ext parsed rfl
      obtain ⟨e, middle, ranReader, ran⟩ := bind_ok.mp
        (show (readWithin (some n) 0 >>= fun e => expectEnd "end of expression" >>= fun _ => pure e)
          ⟨placed :: more, finish⟩ = _ from ran)
      obtain ⟨done, -, rfl⟩ := map_ok.mp ran
      exact reader_within _ ranReader n rfl

private theorem parse_blank (lexed : TokenStream.ofText text = .ok s) (none : s.tokens = [])
    (limit : Option Nat) : parseWithin limit text = .ok .identity := by
  obtain ⟨_ | ⟨placed, more⟩, finish⟩ := s
  · simp only [parseWithin, lexed]
    rfl
  · cases none

/-- A limit never changes what is read. -/
theorem parse_unlimited (parsed : parseWithin limit text = .ok e) :
    parseWithin none text = .ok e := by
  obtain ⟨s, lexed, ⟨empty, rfl⟩ | reads⟩ := parse_within_reads parsed
  · exact parse_blank lexed empty none
  · obtain parsed | ⟨n, position, limited, -⟩ := reads_parse_within none lexed reads
    · exact parsed
    · cases limited

/-- An expression is found again under every limit that it fits with the groups around its parts,
and no other error takes its place where it does not. -/
theorem parse_limited (unlimited : parseWithin none text = .ok e) (n : Nat) :
    ∃ s, TokenStream.ofText text = .ok s ∧ (parseWithin (some n) text = .ok e ∨
      n < e.height + groupNesting s.tokens ∧
        ∃ position, parseWithin (some n) text = .error (.tooDeep n position)) := by
  obtain ⟨s, lexed, ⟨empty, rfl⟩ | reads⟩ := parse_within_reads unlimited
  · exact ⟨s, lexed, .inl (parse_blank lexed empty _)⟩
  · refine ⟨s, lexed, ?_⟩
    obtain parsed | ⟨_, position, same, less, failed⟩ := reads_parse_within (some n) lexed reads
    · exact .inl parsed
    · cases same
      exact .inr ⟨less, position, failed⟩

/-- The limit on the depth is exact: it returns nothing taller than it and nothing else than the
reader without a limit, it returns all that fits together with the groups, and it names the depth as
the reason wherever a tree is taller. -/
theorem parse_depth_exact (text : String) :
    (∀ e, Expr.parse text = .ok e →
      parseWithin none text = .ok e ∧ e.height ≤ maxExprDepth) ∧
    (∀ e s, parseWithin none text = .ok e → TokenStream.ofText text = .ok s →
      e.height + groupNesting s.tokens ≤ maxExprDepth → Expr.parse text = .ok e) ∧
    (∀ e, parseWithin none text = .ok e → maxExprDepth < e.height →
      ∃ position, Expr.parse text = .error (.tooDeep maxExprDepth position)) := by
  have allowed : 0 < maxExprDepth := by decide
  refine ⟨?returned, ?fitting, ?taller⟩
  case returned =>
    intro e parsed
    exact ⟨parse_unlimited parsed, parse_height_le allowed parsed⟩
  case fitting =>
    intro e s unlimited lexed fits
    obtain ⟨found, again, parsed | ⟨less, -⟩⟩ := parse_limited unlimited _
    · exact parsed
    · cases lexed.symm.trans again
      omega
  case taller =>
    intro e unlimited taller
    obtain ⟨found, -, parsed | ⟨-, failed⟩⟩ := parse_limited unlimited _
    · have lower := parse_height_le allowed parsed
      omega
    · exact failed

theorem parse_depth_exact_negations :
    (Expr.parse "(!a)" = .ok (.not (.field "a")) ∧
      parseWithin none "(!a)" = .ok (.not (.field "a")) ∧
      (Expr.not (.field "a")).height ≤ maxExprDepth) ∧
    ∃ e position, parseWithin none (String.ofList (List.replicate 128 '!' ++ ['a'])) = .ok e ∧
      maxExprDepth < e.height ∧
      Expr.parse (String.ofList (List.replicate 128 '!' ++ ['a'])) =
        .error (.tooDeep maxExprDepth position) := by
  constructor
  · obtain ⟨returned, fitting, -⟩ := parse_depth_exact "(!a)"
    have lexed : TokenStream.ofText "(!a)" =
        .ok ⟨[⟨.symbol .leftParen, 0⟩, ⟨.symbol .not, 1⟩, ⟨.identifier "a", 2⟩,
          ⟨.symbol .rightParen, 3⟩], 4⟩ := by rfl
    have unlimited : parseWithin none "(!a)" = .ok (.not (.field "a")) := by cbv
    have parsed := fitting _ _ unlimited lexed (by decide)
    exact ⟨parsed, returned _ parsed⟩
  · obtain ⟨-, -, taller⟩ := parse_depth_exact (String.ofList (List.replicate 128 '!' ++ ['a']))
    have tall : (parseWithin none (String.ofList (List.replicate 128 '!' ++ ['a']))).toOption.any
        (maxExprDepth < ·.height) = true := by decide +kernel
    cases unlimited : parseWithin none (String.ofList (List.replicate 128 '!' ++ ['a'])) with
    | error e =>
      rw [unlimited] at tall
      cases tall
    | ok e =>
      rw [unlimited] at tall
      have higher : maxExprDepth < e.height := of_decide_eq_true tall
      obtain ⟨position, failed⟩ := taller e unlimited higher
      exact ⟨e, position, rfl, higher, failed⟩

end JsonQuery.Expr
