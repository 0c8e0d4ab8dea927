import ImageImports.Cli.Count

/-!
# `ImageImports.Cli.Log`: log events and the filter on them

An event has a level, the name of the part of the program that it comes from, a message and fields.
A filter is a list of directives. Of the directives that match an event the most specific one
decides: it names the least important level that passes. A directive may name the beginning of the
event's source and a field that the event must have.

Main definitions: `Log.Event.line`, `Log.Filter.ofText?` and `Log.Filter.passes`.
-/

set_option autoImplicit false

namespace ImageImports.Log

/-- How important an event is. -/
inductive Level where
  | error
  | warn
  | info
  | debug
  | trace
deriving DecidableEq, Repr

namespace Level

/-- The rank of a level; the most important one has the least. -/
def rank : Level → Nat
  | .error => 1
  | .warn => 2
  | .info => 3
  | .debug => 4
  | .trace => 5

/-- The name of a level in a line, five characters wide. -/
def label : Level → String
  | .error => "ERROR"
  | .warn => " WARN"
  | .info => " INFO"
  | .debug => "DEBUG"
  | .trace => "TRACE"

end Level

/-- An event. -/
structure Event where
  /-- How important the event is. -/
  level : Level
  /-- The part of the program that the event comes from. -/
  source : String
  /-- What happened. -/
  message : String
  /-- Names and values of what took part in it. -/
  fields : List (String × String) := []

/-- The line of an event. -/
def Event.line (event : Event) : String :=
  " ".intercalate ([event.level.label, event.message]
    ++ event.fields.map fun (name, value) => name ++ "=" ++ value)

/-! ### Filters -/

/-- One rule of a filter. -/
structure Directive where
  /-- How the source of an event has to begin. -/
  source : Option String := none
  /-- A field that an event has to have. -/
  field : Option String := none
  /-- The greatest rank that passes; with zero, nothing does. -/
  rank : Nat
deriving DecidableEq, Repr

namespace Directive

/-- Whether a directive has to do with an event. -/
def concerns (directive : Directive) (event : Event) : Bool :=
  (match directive.source with
    | some source => source.toList.isPrefixOf event.source.toList
    | none => true)
  && (match directive.field with
    | some name => event.fields.any fun field => field.1 = name
    | none => true)

/-- How specific a directive is: first by the length of the source that it names, then by whether it
names a field. -/
def weight (directive : Directive) : Nat :=
  2 * (match directive.source with
    | some source => source.utf8ByteSize + 1
    | none => 0)
  + (if directive.field.isSome then 1 else 0)

end Directive

/-- Directives; of two equally specific ones that match an event, the later one decides. -/
structure Filter where
  /-- The directives. -/
  directives : List Directive
deriving Repr

namespace Filter

/-- The filter that lets a level and the more important ones pass, whatever the source. -/
def ofLevel (level : Level) : Filter := ⟨[{ rank := level.rank }]⟩

/-- The directive that decides about an event. -/
def deciding? (filter : Filter) (event : Event) : Option Directive :=
  (filter.directives.filter (·.concerns event)).foldl
    (fun best directive =>
      match best with
      | some other => if other.weight ≤ directive.weight then some directive else best
      | none => some directive)
    none

/-- Whether an event passes. -/
def passes (filter : Filter) (event : Event) : Bool :=
  match filter.deciding? event with
  | some directive => event.level.rank ≤ directive.rank
  | none => false

/-! ### Reading -/

/-- The rank that a text names, as a number or as the name of a level in any case. -/
def rank? (text : String) : Option Nat :=
  match Count.read text with
  | .ok rank => if rank ≤ Level.trace.rank then some rank else none
  | .error _ =>
      match String.ofList (text.toList.map Char.toLower) with
      | "off" => some 0
      | "error" => some Level.error.rank
      | "warn" => some Level.warn.rank
      | "info" => some Level.info.rank
      | "debug" => some Level.debug.rank
      | "trace" => some Level.trace.rank
      | _ => none

/-- The rank that stands after an equals sign; nothing there stands for the greatest. -/
def levelRank? (level : List Char) : Option Nat :=
  if level.isEmpty then some Level.trace.rank else rank? (String.ofList level)

/-- The rank that stands behind brackets. -/
def rankAfter? : List Char → Option Nat
  | [] => some Level.trace.rank
  | '=' :: level => levelRank? level
  | _ => none

/-- The pieces of a text between commas. -/
def splitAtCommas : List Char → List (List Char)
  | [] => [[]]
  | c :: rest =>
      if c = ',' then [] :: splitAtCommas rest
      else
        match splitAtCommas rest with
        | piece :: pieces => (c :: piece) :: pieces
        | [] => [[c]]

/-- Whether a directive may begin with a character. -/
def isStart (c : Char) : Bool :=
  c.isAlphanum || c = '-' || c = ':' || c = '_' || c = '[' || 128 ≤ c.toNat

/-- Reads a directive that begins well. One that names a span, or a field together with its value,
has to do with no event by itself and gives no rule. -/
def rules? (text : List Char) : Option (List Directive) :=
  let source := text.takeWhile fun c => c ≠ '=' && c ≠ '['
  let named : Option String := if source.isEmpty then none else some (String.ofList source)
  match text.dropWhile fun c => c ≠ '=' && c ≠ '[' with
  | [] =>
      match rank? (String.ofList source) with
      | some rank => some [{ rank }]
      | none => some [{ source := named, rank := Level.trace.rank }]
  | '=' :: level => (levelRank? level).map fun rank => [{ source := named, rank }]
  | _ :: inside =>
      let span := inside.takeWhile fun c => c ≠ ']' && c ≠ '{'
      match inside.dropWhile fun c => c ≠ ']' && c ≠ '{' with
      | ']' :: rest => (rankAfter? rest).map fun _ => []
      | '{' :: fields =>
          let field := fields.takeWhile (· ≠ '}')
          match fields.dropWhile (· ≠ '}') with
          | '}' :: ']' :: rest =>
              if field.isEmpty then none
              else
                (rankAfter? rest).map fun rank =>
                  if span.isEmpty && !field.contains '=' then
                    [{ source := named, field := some (String.ofList field), rank }]
                  else []
          | _ => none
      | _ => none

/-- Reads a directive. -/
def directive? : List Char → Option (List Directive)
  | [] => some []
  | c :: rest => if isStart c then rules? (c :: rest) else none

/-- Reads a filter: directives with commas between them. Empty ones are passed over. -/
def ofText? (text : String) : Option Filter :=
  ((splitAtCommas text.toList).mapM directive?).map fun rules => ⟨rules.flatten⟩

end Filter

end ImageImports.Log
