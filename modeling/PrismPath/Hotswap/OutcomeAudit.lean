import PrismPath.Hotswap.SignedImage

/-!
This module contains which swaps end in one audited outcome, over every content of the files of a pack.
-/

open Python PolicyPack Process

namespace PolicyHost

def Op.onAudit : Op → Bool
  | .recoveryEvent => true
  | .recoverySign => true
  | .rejectEvent => true
  | .rejectSign => true
  | .swapEvent => true
  | .swapSign => true
  | _ => false

/-- Of the operations the first that fails is a write to the audit log, or else none fails and `P` holds. -/
def AuditFirst (faults : Faults) (P : Prop) : List Op → Prop
  | [] => P
  | op :: ops =>
    match faults op with
    | .none => AuditFirst faults P ops
    | .error => op.onAudit = true
    | .kill => True

def auditOps (cfg : Config) (write sign : Op) : List Op :=
  write :: if cfg.instanceKeyId.isSome then [sign] else []

def commitOps (cfg : Config) (versioned : Bool) : List Op :=
  .writePending :: ((if versioned then [.writeVersion] else []) ++ (auditOps cfg .swapEvent .swapSign
    ++ [.writeImage, .writeRecord, .removePending]))

/-- The floor as a swap reads it. -/
def floorRead (faults : Faults) (w : World) : Except Raised ℤ :=
  if faults .readStored = .error then .error .osError else .ok w.disk.floor

/-- The checks of the pack come to a verdict, and when they let it through its commit goes well. -/
def Decided (cfg : Config) (faults : Faults) (call : SwapCall) (w : World) : Prop :=
  match vet cfg call w.disk.pending.intent? (floorRead faults w) with
  | .error _ => False
  | .ok (.reject ..) => True
  | .ok (.stage manifest _) =>
    AuditFirst faults True (commitOps cfg (match get manifest "version" with | .none => false | _ => true))

section

variable {w₀ : World} {faults : Faults} {P : Prop}

end

end PolicyHost
