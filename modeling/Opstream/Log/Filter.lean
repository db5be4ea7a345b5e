import Opstream.Log
import Opstream.Text.Lines

namespace Opstream.Log

/-- The most detailed level that is shown; `none` shows nothing. -/
abbrev Limit := Option Level

namespace Limit

def admits (limit : Limit) (level : Level) : Bool :=
  match limit with
  | none => false
  | some most => level.rank ≤ most.rank

def named : List (String × Limit) :=
  [("off", none), ("error", some .error), ("warn", some .warn), ("info", some .info),
    ("debug", some .debug), ("trace", some .trace)]

def ofText? (cs : List Char) : Option Limit :=
  (named.find? (·.1 == String.ofList (cs.map Char.toLower))).map Prod.snd

end Limit

structure Directive where
  target : Option String
  limit : Limit
  deriving DecidableEq

namespace Directive

def covers (d : Directive) (target : String) : Bool :=
  match d.target with
  | none => true
  | some start => start.toList.isPrefixOf target.toList

def weight (d : Directive) : Nat := (d.target.getD "").utf8ByteSize

end Directive

structure Filter where
  directives : List Directive
  needle : Option String

inductive Warning
  | tooManyParts (spec : String)
  | unusable (part : String)
  deriving DecidableEq

def Warning.line : Warning → String
  | tooManyParts spec =>
      s!"warning: invalid logging spec '{spec}' (too many '/'s), ignoring it"
  | unusable part => s!"warning: invalid logging spec '{part}', ignoring it"

def occursIn (needle : List Char) : List Char → Bool
  | [] => needle.isEmpty
  | c :: cs => needle.isPrefixOf (c :: cs) || occursIn needle cs

namespace Filter

def ofLimit (limit : Limit) : Filter := ⟨[⟨none, limit⟩], none⟩

/-- Of the directives that cover a target the one with the longest name decides, and among equals
the last. -/
def directive? (f : Filter) (target : String) : Option Directive :=
  (f.directives.filter (·.covers target)).foldl (fun best d =>
    match best with
    | none => some d
    | some b => if b.weight ≤ d.weight then some d else some b) none

def passes (f : Filter) (event : Event) : Bool :=
  match f.directive? event.target with
  | none => false
  | some d =>
      d.limit.admits event.level &&
        match f.needle with
        | none => true
        | some needle => occursIn needle.toList event.message.toList

def set (f : Filter) (d : Directive) : Filter :=
  if f.directives.any (·.target == d.target) then
    { f with directives := f.directives.map fun old => if old.target = d.target then d else old }
  else
    { f with directives := f.directives ++ [d] }

/-- A level alone is for all targets, a name alone or with no level shows all of its targets. -/
def readDirective (part : List Char) : Except Warning Directive :=
  match Text.splitOn '=' part with
  | [name] =>
      match Limit.ofText? name with
      | some limit => .ok ⟨none, limit⟩
      | none => .ok ⟨some (String.ofList name), some .trace⟩
  | [name, level] =>
      let level := Text.trim level
      if level.isEmpty then .ok ⟨some (String.ofList name), some .trace⟩
      else match Limit.ofText? level with
        | some limit => .ok ⟨some (String.ofList name), limit⟩
        | none => .error (.unusable (String.ofList level))
  | _ => .error (.unusable (String.ofList part))

def readDirectives (f : Filter) (parts : List (List Char)) : Filter × List Warning :=
  parts.foldl (fun (f, warnings) part =>
    match readDirective part with
    | .ok d => (f.set d, warnings)
    | .error w => (f, warnings ++ [w])) (f, [])

/-- Puts directives, separated by commas, on top of a filter. A needle may follow after a slash. -/
def refine (f : Filter) (spec : String) : Filter × List Warning :=
  let parts (cs : List Char) := ((Text.splitOn ',' cs).map Text.trim).filter (!·.isEmpty)
  match Text.splitOn '/' spec.toList with
  | [directives] => f.readDirectives (parts directives)
  | [directives, needle] =>
      let (f, warnings) := f.readDirectives (parts directives)
      ({ f with needle := some (String.ofList needle) }, warnings)
  | _ => (f, [.tooManyParts spec])

end Filter

end Opstream.Log
