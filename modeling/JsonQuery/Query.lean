import JsonQuery.Eval
import JsonQuery.Expr.Parse
import JsonQuery.Function.Library

/-!
Queries: a text, parsed once, that can be run on any number of documents. Running a query keeps
nothing, so its result depends on the document and on the options alone.
-/
namespace JsonQuery

/-- How a query is run. -/
structure Options where
  order : ObjectOrder
  functions : Registry

/-- The functions of the library, and objects in the order in which their keys are declared. -/
def Options.standard : Options :=
  ⟨.insertion, .builtins⟩

/-- The settings of an evaluation with these options. -/
def Options.settings (o : Options) : Settings :=
  ⟨o.functions, o.order, some maxEvalDepth⟩

/-- The value of an expression on a document. -/
def Expr.evaluate (o : Options) (e : Expr) (document : Value) : Except EvalError Value :=
  e.eval o.settings 0 document

/-- A text together with the expression that it denotes. -/
structure Query where
  text : String
  expr : Expr

/-- Why a search has no result. -/
inductive SearchError where
  | parse (e : ParseError)
  | eval (e : EvalError)

/-- The error in words. -/
def SearchError.message : SearchError → String
  | .parse e => e.message
  | .eval e => e.message

namespace Query

/-- The query of a text. -/
def compile (text : String) : Except ParseError Query := do
  return ⟨text, ← Expr.parse text⟩

/-- The value of the query on a document. -/
def run (o : Options) (q : Query) (document : Value) : Except EvalError Value :=
  q.expr.evaluate o document

/-- Compiles a text and runs it on one document. -/
def search (o : Options) (text : String) (document : Value) : Except SearchError Value := do
  let q ← (compile text).mapError .parse
  (q.run o document).mapError .eval

end Query

end JsonQuery
