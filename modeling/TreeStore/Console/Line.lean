import TreeStore.Console.Clock
import TreeStore.Console.Template

/-!
# Console lines

The text of a log record on the console: time, level, logger, message and context, then the failure
that it is about. In color the logger's name is shortened and stack information is left out; without
color the context comes last.
-/

namespace TreeStore.Console

/-- A record to be shown. -/
structure Entry where
  /-- The name of the logger. -/
  logger : String
  /-- The level. -/
  level : Int
  /-- The template of the message. -/
  template : String
  /-- The values of the template. -/
  values : List Value := []
  /-- The label of the context, empty for none. -/
  context : String := ""
  /-- When the record was made, in seconds. -/
  moment : Int := 0
  /-- The thread that made it. -/
  thread : String := "MainThread"
  /-- The failure that it is about. -/
  failure : Option Failure := none
  /-- The text of the failure if it was made before. -/
  failureText : String := ""
  /-- Stack information. -/
  stack : String := ""

/-- The names of levels. -/
def levelNames : List (Int × String) :=
  [(0, "NOTSET"), (10, "DEBUG"), (20, "INFO"), (30, "WARNING"), (40, "ERROR"), (50, "CRITICAL")]

/-- The name of a level. -/
def levelName (level : Int) : String :=
  (levelNames.lookup level).getD ("Level " ++ toString level)

/-- The code that ends a color. -/
def reset : String := "\x1b[0m"

/-- The color of what is less important. -/
def gray : String := "\x1b[90m"

/-- The code that makes text bold. -/
def bold : String := "\x1b[1m"

/-- The colors of the common levels. -/
def levelColors : List (Int × String) :=
  [(10, "\x1b[36m"), (20, "\x1b[32m"), (30, "\x1b[33m"), (40, "\x1b[31m"), (50, "\x1b[35m")]

/-- The name of a level in color, the common ones filled up to one width. -/
def coloredLevel (level : Int) : String :=
  match levelColors.lookup level with
  | some color =>
    bold ++ color ++ String.ofList (Digits.fill ' ' 8 (levelName level).toList) ++ reset
  | none => levelName level

/-- A text cut at a separator. -/
def cut (separator : Char) (s : String) : List (List Char) :=
  s.toList.foldr (fun c parts => if c = separator then [] :: parts else match parts with
    | [] => [[c]]
    | p :: ps => (c :: p) :: ps) [[]]

/-- The name of a logger with only the first letter of all parts but the last two. -/
def shortName (logger : String) : String :=
  let parts := cut '.' logger
  let early := parts.length - 2
  String.ofList <|
    ['.'].intercalate ((parts.take early).map (·.take 1) ++ parts.drop early)

/-- The text of a failure: its kind, its message if it has any, and the lines of its notes. -/
def failureText (f : Failure) : String :=
  let message := match f.problem with
    | .missingKey key => Quoted.literal key
    | problem => problem.message?.getD ""
  let head := f.problem.home ++ f.problem.kind ++ if message.isEmpty then "" else ": " ++ message
  "\n".intercalate (head :: f.notes)

/-- The text of the failure that a record is about, empty for none. -/
def Entry.failureShown (e : Entry) : String :=
  if e.failureText.isEmpty then (e.failure.map Console.failureText).getD "" else e.failureText

/-- A text with another one on its own line behind it; an empty one is left out. -/
def below (s more : String) : String :=
  if more.isEmpty then s
  else if s.toList.getLast? = some '\n' then s ++ more
  else s ++ "\n" ++ more

/-- A line without color. -/
def plain (e : Entry) : Except Problem String := do
  let message ← Template.message e.template e.values
  let head := Clock.timeOfDay e.moment ++ " " ++ levelName e.level ++ " [" ++ e.logger ++ "] " ++
    message
  let text := below (below head e.failureShown) e.stack
  return if e.context.isEmpty then text else text ++ " " ++ e.context

/-- A line in color. -/
def colored (e : Entry) : Except Problem String := do
  let message ← Template.message e.template e.values
  let withContext :=
    if e.context.isEmpty then message else message ++ " " ++ gray ++ e.context ++ reset
  let shown := e.failureShown
  let body := if shown.isEmpty then withContext else withContext ++ "\n" ++ shown
  let thread := if e.thread = "MainThread" then "" else "[" ++ e.thread ++ "]"
  return gray ++ Clock.timeOfDay e.moment ++ reset ++ " " ++ coloredLevel e.level ++ " [" ++
    shortName e.logger ++ "]" ++ thread ++ " " ++ body

/-- Whether lines are in color: always, unless that is left to whether the stream is a console. -/
def inColor (probe isConsole : Bool) : Bool := !probe || isConsole

/-- The text of a record. -/
def line (color : Bool) (e : Entry) : Except Problem String := if color then colored e else plain e

end TreeStore.Console
