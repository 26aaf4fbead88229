import Csc457.Secret.Accounting

/-!
# Live update

The old instance publishes its variables to the data store, the new one retrieves
them.  The data store returns what was published under a key.  The count of read
descriptors is not among what is published, so that clients see nothing of the
update exactly when that count was 0.
-/

set_option autoImplicit false

namespace Csc457.Secret

open Function
open Csc457.Lib.Transition

variable {β : Type}

section Clients
variable [Zero β] (outside : Nat → β)

def erases (w : World β) : Request β → Bool
  | .devClose caller getnucred _ => decide (Resets w.driver caller getnucred)
  | _ => false

end Clients

section Runs
variable [Zero β] {outside : Nat → β} {w : World β}

/-- Whoever the owner is, or user 0 where there is none. -/
def holder (w : World β) : Uid :=
  if w.driver.secretOwner = noOwner then 0 else w.driver.secretOwner

end Runs

def reader : World UInt8 := (serve nothing World.start (.devOpen 10 .ok readOnly)).2

/-- User 10 wrote a secret and keeps the descriptor. -/
def writer : World UInt8 :=
  (serve nothing (serve nothing World.start (.devOpen 10 .ok writeOnly)).2
    (.devWrite 10 0 origin [83, 69, 67] copied)).2

end Csc457.Secret
