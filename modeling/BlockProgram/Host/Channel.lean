import BlockProgram.Host.Message

/-!
# Channels to the host

A channel takes messages one after the other, or refuses them; what it has taken so far is
all that is known of it.
-/

namespace BlockProgram

/-- A way to the host, by what becomes of what it has taken when it takes a message more. -/
structure Channel (σ : Type) where
  /-- What has been taken after a message, or nothing if the message is refused. -/
  post : HostMessage → σ → Option σ

namespace Channel

/-- Keeps every message. -/
def log : Channel (List HostMessage) := ⟨fun m sent => some (sent ++ [m])⟩

/-- Writes every message as a line. -/
def lines : Channel String := ⟨fun m sent => some (sent ++ m.line)⟩

/-- Refuses every message. -/
def refusing : Channel Unit := ⟨fun _ _ => none⟩

/-- What has been taken after a message was offered. -/
def offer {σ : Type} (c : Channel σ) (sent : σ) (m : HostMessage) : σ := (c.post m sent).getD sent

end Channel

end BlockProgram
