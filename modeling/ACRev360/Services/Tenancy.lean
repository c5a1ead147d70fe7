import Mathlib.Data.Nat.Notation

-- A custom setting of a PostgreSQL session: its value, and the values that are remembered by the
-- transaction and by the savepoints that are open, the latest first.
structure Setting (V : Type) where
  value : V
  saved : List V

namespace Setting

variable {V : Type} (s : Setting V)

-- BEGIN and SAVEPOINT
def save : Setting V where
  value := s.value
  saved := s.value :: s.saved

-- SET LOCAL
def setLocal (v : V) : Setting V :=
  { s with value := v }

-- RELEASE SAVEPOINT: what has been set since stays.
def release : Setting V :=
  { s with saved := s.saved.tail }

-- ROLLBACK TO SAVEPOINT, and the end of a transaction, be it COMMIT or ROLLBACK.
def restore : Setting V where
  value := s.saved.headD s.value
  saved := s.saved.tail

end Setting

namespace ACRev360

-- app.council_id: the council whose rows the policies let a statement see.
abbrev CouncilId := Option ℕ

variable {ε ρ : Type}

-- What a request does in the transaction of the middleware, as far as the tenant context is concerned.
-- The result of a query depends on the council it runs under, and what follows depends on the result.
inductive Handler (ε ρ : Type) where
  | ret (r : ρ)
  | raise (e : ε)
  | query (k : CouncilId → Handler ε ρ)
  | atomic (body : Handler ε ρ) (k : ρ → Handler ε ρ)
  | councilContext (council : CouncilId) (body : Handler ε ρ) (k : ρ → Handler ε ρ)
  | attempt (body : Handler ε ρ) (k : Except ε ρ → Handler ε ρ)

-- What happens on the way: a query runs under `seen` in the innermost block, which is one of the council
-- `own`, or the block of a council is left, by `return` or by an exception.
inductive TenantEvent where
  | query (own seen : CouncilId)
  | left (council before after : CouncilId) (returned : Bool)
deriving DecidableEq

structure Ran (ε ρ : Type) where
  out     : Except ε ρ
  setting : Setting CouncilId
  log     : List TenantEvent

-- What has run before goes into the log first.
def Ran.after (l : List TenantEvent) (r : Ran ε ρ) : Ran ε ρ :=
  { r with log := l ++ r.log }

namespace Handler

-- Nested blocks are savepoints: the first statement of `council_context` is SET LOCAL.
def exec (own : CouncilId) : Handler ε ρ → Setting CouncilId → Ran ε ρ
  | ret r, s         => ⟨.ok r, s, []⟩
  | raise e, s       => ⟨.error e, s, []⟩
  | query k, s       => (k s.value).exec own s |>.after [.query own s.value]
  | atomic body k, s =>
    let b := body.exec own s.save
    match b.out with
    | .ok r    => (k r).exec own b.setting.release |>.after b.log
    | .error e => ⟨.error e, b.setting.restore, b.log⟩
  | councilContext council body k, s =>
    let b := body.exec council (s.save.setLocal council)
    match b.out with
    | .ok r    =>
      (k r).exec own b.setting.release
        |>.after (b.log ++ [.left council s.value b.setting.release.value true])
    | .error e =>
      ⟨.error e, b.setting.restore, b.log ++ [.left council s.value b.setting.restore.value false]⟩
  | attempt body k, s =>
    let b := body.exec own s
    (k b.out).exec own b.setting |>.after b.log

end Handler

-- find_across_active_councils
def findAcrossActiveCouncils (queryFn : ℕ → Handler ε ρ) (truthy : ρ → Bool) (k : Option ρ → Handler ε ρ) :
    List ℕ → Handler ε ρ
  | []                => k none
  | council :: active =>
    .councilContext (some council) (queryFn council) fun result =>
      if truthy result then k (some result) else findAcrossActiveCouncils queryFn truthy k active

-- platform_wide_queryset, for the councils that are accessible to the user.
def platformWideQueryset (queryFn : ℕ → Handler ε ρ) (k : List ρ → Handler ε ρ) :
    List ℕ → List ρ → Handler ε ρ
  | [], results                    => k results
  | council :: accessible, results =>
    .councilContext (some council) (queryFn council) fun result =>
      platformWideQueryset queryFn k accessible (results ++ [result])

-- CouncilContextMiddleware: the transaction around a request, in a session with the setting `s`.
def serveUnder (council : CouncilId) (view : Handler ε ρ) (s : Setting CouncilId) : Ran ε ρ :=
  let ran := view.exec council (s.save.setLocal council)
  { ran with setting := ran.setting.restore }

end ACRev360
