import GraphJournal.Graph.Location

/-!
Descriptions for those who look at a running graph: one line of text that names a thing and shows
its fields.
-/
namespace GraphJournal

namespace Describe

/-- A name and its fields in braces; `more` says that not all fields are shown. -/
def fields (name : String) (shown : List (String × String)) (more : Bool) : String :=
  let parts := shown.map (fun f => f.1 ++ ": " ++ f.2) ++ if more then [".."] else []
  name ++ " \x7b " ++ ", ".intercalate parts ++ " \x7d"

def wrapped (name inner : String) : String := name ++ "(" ++ inner ++ ")"

def bool (b : Bool) : String := if b then "true" else "false"

/-- A number in decimal, with a sign if it is negative. -/
def int (i : Int) : String :=
  if i < 0 then "-" ++ toString i.natAbs else toString i.natAbs

def list (texts : List String) : String := "[" ++ ", ".intercalate texts ++ "]"

/-- The decimals of a number of thousandths, without zeros at the end. -/
def thousandths (n : Nat) : String :=
  if n = 0 then ""
  else if n % 100 = 0 then "." ++ toString (n / 100)
  else if n % 10 = 0 then "." ++ toString (n / 100) ++ toString (n / 10 % 10)
  else "." ++ toString (n / 100) ++ toString (n / 10 % 10) ++ toString (n % 10)

/-- A time in milliseconds: in seconds from one second on, below that in whole milliseconds. -/
def milliseconds (ms : Nat) : String :=
  if ms = 0 then "0ns"
  else if ms < 1000 then toString ms ++ "ms"
  else toString (ms / 1000) ++ thousandths (ms % 1000) ++ "s"

end Describe

open Describe

def Links.describe (l : Links) : String :=
  fields "LinkState"
    [("has_parent", bool l.parent.isSome), ("has_root", bool l.root.isSome),
      ("key", int l.key.toInt)]
    false

def Location.describe (location? : Option Location) : String :=
  match location? with
  | none => "None"
  | some l =>
    wrapped "Some" <|
      fields "Locator"
        [("node_key", int l.key.toInt), ("path", list (l.pathKeys.map (int ·.toInt)))]
        true

def JournalConfig.describe (c : JournalConfig) : String :=
  fields "JournalConfig"
    [("capacity", toString c.capacity), ("max_entry_size", toString c.maxEntrySize),
      ("strict", bool c.strict), ("formatter", c.layout.name)]
    false

def Journal.describe (j : Journal) : String :=
  let stats :=
    fields "JournalStats"
      [("appended", toString j.appended), ("committed_bytes", toString j.committed),
        ("rejected_no_room", toString j.refusedNoRoom),
        ("rejected_oversized", toString j.refusedOversized), ("position", toString j.position),
        ("capacity", toString j.config.capacity)]
      false
  fields "JournalBuffer" [("config", j.config.describe), ("stats", stats)] true

def SaveQueue.describe {ν : Type} (q : SaveQueue ν) : String :=
  fields "SaveQueue" [("len", toString q.length)] false

def Cell.describe {α : Type} (c : Cell α) : String :=
  let config :=
    fields "LifecycleConfig"
      [("lock_timeout", milliseconds c.config.lockTimeoutMs), ("formatter", c.config.layout.name)]
      false
  fields "PersistentCell"
    [("id", wrapped "NodeId" (toString c.id.raw.toNat)), ("config", config)]
    true

def Cell.describeNode {α : Type} (c : Cell α) (l : Links) : String :=
  let state := fields "RwLock" [("data", l.describe)] false
  fields "PersistentValue"
    [("links", fields "NodeLinks" [("state", state)] false), ("cell", c.describe)]
    false

end GraphJournal
