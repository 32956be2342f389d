import GraphJournal.Entry.Draft
import GraphJournal.MessagePack.Codec

/-!
Values as parts of what is being written. An encoder that gives up has written something already;
that stays where it is, and whoever is in charge of the whole entry decides what becomes of it.
-/
namespace GraphJournal

open MessagePack

/-- Something written to a `Writer`, which keeps what it got when the writing fails. -/
abbrev WriterM (α : Type) := EStateM Error Writer α

/-- Something written to a `Draft`, which keeps what it got when the writing fails. -/
abbrev DraftM (α : Type) := EStateM Error Draft α

namespace Writer

/-- Writes what an encoder has written. -/
def encoded (e : Encoded) : WriterM Unit := fun w =>
  match e.fault? with
  | none => .ok () (w.append e.bytes)
  | some fault => .error (.serialization fault) (w.append e.bytes)

def value {α : Type} (c : Codec α) (layout : Layout) (a : α) : WriterM Unit :=
  encoded (c.encode layout a)

end Writer

namespace Draft

/-- Does something with the bytes of the entry, its header included. -/
def onWriter {α : Type} (act : WriterM α) : DraftM α := fun d =>
  match act d.writer with
  | .ok a writer => .ok a { d with writer }
  | .error e writer => .error e { d with writer }

def value {α : Type} (c : Codec α) (layout : Layout) (a : α) : DraftM Unit :=
  onWriter (Writer.value c layout a)

end Draft

end GraphJournal
