import GraphJournal.MessagePack.Compound

/-!
Passing over values of any kind, as a reader does with the fields that it does not know.
-/
namespace GraphJournal.MessagePack

/-- Passes over one value, which may enter `depth` arrays, maps and extensions one inside the other.
An extension holds nothing but bytes, yet it takes a level of its own as an array does. -/
def skip (depth : Nat) : Decode Unit := do
  match ← readHead with
  | .nil | .bool _ | .unsigned _ | .signed _ | .single _ | .double _ => return ()
  | .text n | .binary n => discard (takeBytes n)
  | .extension n =>
    match depth with
    | 0 => malformed
    | _ + 1 => discard (takeBytes (n + 1))
  | .array n =>
    match depth with
    | 0 => malformed
    | depth + 1 => discard (times (skip depth) n)
  | .map n =>
    match depth with
    | 0 => malformed
    | depth + 1 => discard (times (do skip depth; skip depth) n)

end GraphJournal.MessagePack
