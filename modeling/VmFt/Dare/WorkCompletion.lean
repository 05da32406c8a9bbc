import Mathlib.Data.Nat.Bitwise

/-! # Work requests and their completions

What all the pollers of completion queues read: the status of a completion, and
the identifier of its work request with the connection in the lowest eight bits,
two flags, and the sequence number above them.
-/

namespace VmFt.Dare

/-- `enum ibv_wc_status` -/
inductive WcStatus where
  | success | locLenErr | locQpOpErr | locEecOpErr | locProtErr | wrFlushErr | mwBindErr
  | badRespErr | locAccessErr | remInvReqErr | remAccessErr | remOpErr | retryExcErr
  | rnrRetryExcErr | locRddViolErr | remInvRdReqErr | remAbortErr | invEecnErr | invEecStateErr
  | fatalErr | respTimeoutErr | generalErr
  deriving DecidableEq, Repr

/-- The result of `handle_work_completion`. -/
inductive WcRc | success | failure | softwareBug | error
  deriving DecidableEq, Repr

def handleWorkCompletion : WcStatus → WcRc
  | .success => .success
  | .wrFlushErr | .retryExcErr => .failure
  | .badRespErr | .remInvReqErr | .remOpErr | .fatalErr | .respTimeoutErr | .generalErr => .error
  | _ => .softwareBug

inductive RcQpState | active | error | blocked
  deriving DecidableEq, Repr

def wridGetConn (wrId : ℕ) : ℕ := wrId % 256

def wridGetSsn (wrId : ℕ) : ℕ := wrId >>> 10

/-- `WRID_UNSET_TAG`: the tag is bit 8. -/
def wridUnsetTag (wrId : ℕ) : ℕ := wrId - (wrId &&& 1 <<< 8)

/-- The identifier of a work request, `wr_id`, by its fields. -/
structure WrId where
  ssn : ℕ
  conn : ℕ
  wa : Bool
  tag : Bool
  deriving DecidableEq, Repr

namespace WrId

def unsetTag (id : WrId) : WrId := { id with tag := false }

def unsetWa (id : WrId) : WrId := { id with wa := false }

def word (id : WrId) : ℕ := 1024 * id.ssn + 512 * id.wa.toNat + 256 * id.tag.toNat + id.conn

variable {id id' : WrId}

theorem wridGetConn_word (h : id.conn < 256) : wridGetConn id.word = id.conn := by
  unfold wridGetConn word
  omega

theorem wridUnsetTag_word (h : id.conn < 256) : wridUnsetTag id.word = id.unsetTag.word := by
  have hbit : id.word.testBit 8 = id.tag := by
    rw [Nat.testBit_eq_decide_div_mod_eq, word]
    cases id.tag with
    | false => exact decide_eq_false (by rw [Bool.toNat_false]; omega)
    | true => exact decide_eq_true (by rw [Bool.toNat_true]; omega)
  rw [wridUnsetTag, Nat.one_shiftLeft, Nat.and_two_pow, hbit, word, word, unsetTag]
  dsimp only
  rw [Bool.toNat_false]
  omega

theorem word_inj (h : id.conn < 256) (h' : id'.conn < 256) : id.word = id'.word ↔ id = id' := by
  refine ⟨fun heq => ?_, congrArg word⟩
  obtain ⟨ssn, conn, wa, tag⟩ := id
  obtain ⟨ssn', conn', wa', tag'⟩ := id'
  cases wa <;> cases tag <;> cases wa' <;> cases tag' <;>
    simp only [word, mk.injEq, Bool.toNat_true, Bool.toNat_false, reduceCtorEq, and_true,
      and_false] at * <;> omega

end WrId

end VmFt.Dare
