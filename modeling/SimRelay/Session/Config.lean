import SimRelay.Message

/-!
# Session/Config — what the handshake settles

The daemon's terms, read: how deliveries travel, and where payloads are kept if they travel by key.
-/

namespace SimRelay

/-- Where a payload store is found. -/
structure StoreParams where
  address : String
  port : UInt16
  index : UInt32
  deriving DecidableEq, Repr, Inhabited

/-- What holds from the handshake to the end of a session. -/
structure SessionConfig where
  mode : SystemMode := .pull
  /-- Present when payloads travel through a store. -/
  store : Option StoreParams := none
  deriving DecidableEq, Repr, Inhabited

namespace SessionConfig

/-- Payloads travel by key. -/
def usesStore (c : SessionConfig) : Bool := c.store.isSome

/-- A store counts only if the terms ask for one, whatever address they name. -/
def ofTerms (t : Terms) : SessionConfig where
  mode := t.mode
  store := if t.useStore then some ⟨t.storeAddress, t.storePort, t.storeIndex⟩ else none

end SessionConfig

end SimRelay
