import LiveQuery.Config
import LiveQuery.Database
import LiveQuery.Report

/-! # Command line

A shell over one connection. Each line of the input is a statement; what the connection receives is
printed as it arrives. A database with a file keeps the lines in it and runs them again when it is
opened.
-/
namespace LiveQuery.Shell

/-- More steps than a statement takes. -/
def fuel : Nat := 1000000000

/-- Fails with a message. -/
def fail {α : Type} (message : String) : IO α := throw (IO.userError message)

/-- Lets everything that is under way come to its end. -/
def settle (db : Database) : IO Database :=
  match db.settle fuel fuel with
  | some db => return db
  | none => fail "the statement did not end"

/-- Runs the lines of a file again; a file that cannot be read has none. -/
def replay (path : String) : IO Database := do
  let lines ← try IO.FS.lines path catch _ => pure #[]
  lines.foldlM (fun db line => settle (db.call 0 line)) {}

/-- Opens the database of a configuration. -/
def openDatabase (c : Config) : IO Database := do
  match c.path with
  | some path =>
    IO.println ("livedb: " ++ path)
    replay path
  | none =>
    IO.println "livedb: in memory"
    return {}

/-- Keeps a line in the file of a configuration. -/
def keep (c : Config) (line : String) : IO Unit := do
  match c.path with
  | some path => IO.FS.withFile path .append fun file => file.putStrLn line
  | none => return

/-- Reads statements and prints messages until the input ends. -/
partial def loop (c : Config) (connection : Nat) (db : Database) : IO Unit := do
  IO.print "> "
  (← IO.getStdout).flush
  let line ← (← IO.getStdin).getLine
  if line.isEmpty then return
  let text := line.trimAscii.toString
  if text.isEmpty then loop c connection db
  else
    match db.run connection text with
    | none => fail "the connection is closed"
    | some (_, db) =>
      let db ← settle db
      keep c text
      let (messages, db) := db.takeMessages connection
      messages.forM fun m => IO.println (Report.message m)
      loop c connection db

end LiveQuery.Shell

open LiveQuery in
/-- Reads the configuration from the environment and runs the shell. -/
def main : IO Unit := do
  let path ← IO.getEnv Config.pathVariable
  let capacity ← IO.getEnv Config.capacityVariable
  match Config.ofVariables fun name => if name = Config.pathVariable then path else capacity with
  | .error f => Shell.fail f.message
  | .ok c =>
    let (connection, db) := (← Shell.openDatabase c).connect
    Shell.loop c connection db
