import CoherenceFormal.Protocol

/-! The five protocols. In each table a transaction that a handler has no branch
for leaves the snooped line as it is. MESI, SMART and Dragon have no
`supplier_found`: any valid copy supplies. -/

namespace CoherenceFormal
open LineState
set_option autoImplicit false

inductive MESIState where
  | invalid
  | shared
  | exclusive
  | modified
  deriving Repr, DecidableEq

instance : LineState MESIState := ⟨.invalid, inferInstance⟩

instance : Fintype MESIState := ⟨{.invalid, .shared, .exclusive, .modified},
  by intro state; cases state <;> decide⟩

namespace MESIProtocol

def snoop : BusTransactionType → MESIState → MESIState
  | .busRdx, _ => .invalid
  | .busUpgr, _ => .invalid
  | .busRd, .modified => .shared
  | .busRd, .exclusive => .shared
  | _, state => state

def rules (replacement : Replacement MESIState) : ProtocolRules MESIState where
  isShared := (· == .shared)
  writeHit := fun _ => .modified
  missAction := fun isWrite => if isWrite then .busRdx else .busRd
  isSupplier := fun _ => true
  snoop := snoop
  countsReceived := fun type => type == .busRdx || type == .busUpgr
  countsSent := true
  upgrLatency := 0
  upgrTraffic := 0
  upgrState := fun _ => .modified
  countsRead := (· == .busRd)
  fillState := fun type sharedSignal =>
    if type = .busRd ∧ sharedSignal then .shared
    else if type = .busRd then .exclusive
    else .modified
  isDirty := (· == .modified)
  replacement := replacement

end MESIProtocol

def mesi : ProtocolRules MESIState := MESIProtocol.rules LRUCacheSet.replacement

/-- `mesi_smart.h` repeats the MESI handlers over its own set class. -/
def smart : ProtocolRules MESIState :=
  MESIProtocol.rules (SmartCacheSet.replacement (· == .modified) rfl)

inductive MESIFState where
  | invalid
  | shared
  | exclusive
  | modified
  | forward
  deriving Repr, DecidableEq

instance : LineState MESIFState := ⟨.invalid, inferInstance⟩

instance : Fintype MESIFState := ⟨{.invalid, .shared, .exclusive, .modified, .forward},
  by intro state; cases state <;> decide⟩

namespace MESIFProtocol

def snoop : BusTransactionType → MESIFState → MESIFState
  | .busRdx, _ => .invalid
  | .busUpgr, _ => .invalid
  | .busRd, _ => .shared
  | _, state => state

end MESIFProtocol

def mesif : ProtocolRules MESIFState where
  isShared := fun state => state == .shared || state == .forward
  writeHit := fun _ => .modified
  missAction := fun isWrite => if isWrite then .busRdx else .busRd
  isSupplier := fun state => state == .modified || state == .exclusive || state == .forward
  snoop := MESIFProtocol.snoop
  countsReceived := fun type => type == .busRdx || type == .busUpgr
  countsSent := true
  upgrLatency := 0
  upgrTraffic := 0
  upgrState := fun _ => .modified
  countsRead := (· == .busRd)
  fillState := fun type sharedSignal =>
    if type = .busRd then (if sharedSignal then .forward else .exclusive) else .modified
  isDirty := (· == .modified)
  replacement := LRUCacheSet.replacement

inductive MOESIState where
  | invalid
  | shared
  | exclusive
  | modified
  | owned
  deriving Repr, DecidableEq

instance : LineState MOESIState := ⟨.invalid, inferInstance⟩

instance : Fintype MOESIState := ⟨{.invalid, .shared, .exclusive, .modified, .owned},
  by intro state; cases state <;> decide⟩

namespace MOESIProtocol

def snoop : BusTransactionType → MOESIState → MOESIState
  | .busRdx, _ => .invalid
  | .busUpgr, _ => .invalid
  | .busRd, .modified => .owned
  | .busRd, .exclusive => .shared
  | _, state => state

end MOESIProtocol

def moesi : ProtocolRules MOESIState where
  isShared := fun state => state == .shared || state == .owned
  writeHit := fun _ => .modified
  missAction := fun isWrite => if isWrite then .busRdx else .busRd
  isSupplier := fun state => state == .modified || state == .exclusive || state == .owned
  snoop := MOESIProtocol.snoop
  countsReceived := fun type => type == .busRdx || type == .busUpgr
  countsSent := true
  upgrLatency := 0
  upgrTraffic := 0
  upgrState := fun _ => .modified
  countsRead := (· == .busRd)
  fillState := fun type sharedSignal =>
    if type = .busRd then (if sharedSignal then .shared else .exclusive) else .modified
  isDirty := fun state => state == .modified || state == .owned
  replacement := LRUCacheSet.replacement

inductive DragonState where
  | invalid
  | sharedClean
  | sharedModified
  | exclusive
  | modified
  deriving Repr, DecidableEq

instance : LineState DragonState := ⟨.invalid, inferInstance⟩

instance : Fintype DragonState := ⟨{.invalid, .sharedClean, .sharedModified, .exclusive, .modified},
  by intro state; cases state <;> decide⟩

namespace DragonProtocol

def snoop : BusTransactionType → DragonState → DragonState
  | .busUpgr, .sharedModified => .sharedClean
  | .busRd, .exclusive => .sharedClean
  | .busRd, .modified => .sharedModified
  | _, state => state

end DragonProtocol

/-- BUS_UPGR is the bus update here. A store miss asks for BUS_RD like a load. -/
def dragon : ProtocolRules DragonState where
  isShared := fun state => state == .sharedClean || state == .sharedModified
  writeHit := fun state => if state = .exclusive then .modified else state
  missAction := fun _ => .busRd
  isSupplier := fun _ => true
  snoop := DragonProtocol.snoop
  countsReceived := (· == .busUpgr)
  countsSent := false
  upgrLatency := 2
  upgrTraffic := 4
  upgrState := fun sharedSignal => if sharedSignal then .sharedModified else .modified
  countsRead := fun _ => true
  fillState := fun _ sharedSignal => if sharedSignal then .sharedClean else .exclusive
  isDirty := fun state => state == .modified || state == .sharedModified
  replacement := LRUCacheSet.replacement

/-- The protocol names the constructor of `Simulator` accepts. -/
inductive ProtocolName where
  | mesi
  | dragon
  | mesif
  | smart
  | moesi
  deriving Repr, DecidableEq

namespace ProtocolName

def State : ProtocolName → Type
  | .mesi => MESIState
  | .dragon => DragonState
  | .mesif => MESIFState
  | .smart => MESIState
  | .moesi => MOESIState

instance (p : ProtocolName) : LineState p.State :=
  match p with
  | .mesi => inferInstanceAs (LineState MESIState)
  | .dragon => inferInstanceAs (LineState DragonState)
  | .mesif => inferInstanceAs (LineState MESIFState)
  | .smart => inferInstanceAs (LineState MESIState)
  | .moesi => inferInstanceAs (LineState MOESIState)

def rules : (p : ProtocolName) → ProtocolRules p.State
  | .mesi => CoherenceFormal.mesi
  | .dragon => CoherenceFormal.dragon
  | .mesif => CoherenceFormal.mesif
  | .smart => CoherenceFormal.smart
  | .moesi => CoherenceFormal.moesi

end ProtocolName
end CoherenceFormal
