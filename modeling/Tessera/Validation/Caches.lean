import Tessera.Lib.Cuckoo
import Tessera.Script.Checkers
import Tessera.Validation.Connect

/-!
# The validation caches

The signature cache of `script/sigcache.cpp` and the script execution cache of `validation.cpp`,
with `CheckInputScripts` on top of them.

Several threads use the caches at once. Every access to a cache is made under a lock, so the
accesses of all threads have an order; but between two accesses of one thread there may be any
number of accesses of others. A thread is run against what the others do (`Local.others`), and an
`Execution` is a sequence of accesses such that the accesses of each thread are those that it makes
when the others make theirs.
-/

namespace Tessera.Validation

open Coins Lib Script Tx

/-! ### Accesses -/

/-- `SignatureCacheHasher`: four bytes of the entry. -/
def signatureCacheHasher (hashSelect : Fin 8) (key : Uint256) : UInt32 :=
  UInt32.ofNat (readLE ((key.data.drop (4 * hashSelect)).take 4))

/-- `ValidationCache`, with the signature cache in it. -/
structure ValidationCache where
  signatureCache : Cuckoo.Cache Uint256
  scriptExecutionCache : Cuckoo.Cache Uint256

/-- An access to one of the caches. An entry is the hash of the key that it has here. -/
inductive Access where
  | sigGet (key : Bytes) (erase : Bool)
  | sigSet (key : Bytes)
  | scriptContains (key : Bytes) (erase : Bool)
  | scriptInsert (key : Bytes)
  deriving DecidableEq

/-- The string of which an access uses the hash. -/
def Access.key : Access → Bytes
  | .sigGet key _ | .sigSet key | .scriptContains key _ | .scriptInsert key => key

variable (P : Primitives)

/-- Make an access. The answer of one that inserts is not used. -/
def ValidationCache.apply (c : ValidationCache) : Access → Bool × ValidationCache
  | .sigGet key erase =>
    let found := c.signatureCache.contains signatureCacheHasher (hash P key) erase
    (found.1, { c with signatureCache := found.2 })
  | .sigSet key =>
    (false, { c with signatureCache := c.signatureCache.insert signatureCacheHasher (hash P key) })
  | .scriptContains key erase =>
    let found := c.scriptExecutionCache.contains signatureCacheHasher (hash P key) erase
    (found.1, { c with scriptExecutionCache := found.2 })
  | .scriptInsert key =>
    (false, { c with
        scriptExecutionCache := c.scriptExecutionCache.insert signatureCacheHasher (hash P key) })

/-- Make some accesses one after the other. -/
def ValidationCache.applyAll (c : ValidationCache) (accesses : List Access) : ValidationCache :=
  accesses.foldl (fun c a => (c.apply P a).2) c

/-- What a thread sees: the caches, what other threads do before each of its own accesses, and its
own accesses so far. -/
structure Local where
  cache : ValidationCache
  others : List (List Access)
  log : List Access

/-- Make an access, after what the others do before it. -/
def Local.access (a : Access) (s : Local) : Bool × Local :=
  let found := (s.cache.applyAll P (s.others.headD [])).apply P a
  (found.1, ⟨found.2, s.others.tail, s.log ++ [a]⟩)

/-! ### Signatures -/

/-- The random numbers with which the two hashers are salted. -/
structure Nonces where
  signature : Uint256
  scriptExecution : Uint256

variable (nonces : Nonces)

/-- What `SignatureCache::ComputeEntry` hashes. The salt is filled up with an `M` and zeros. -/
def signatureKey (sighash : Uint256) (pubkey : CPubKey) (vchSig : Bytes) : Bytes :=
  nonces.signature.data ++ (0x4d :: List.replicate 31 0) ++ sighash.data ++ pubkey.vch ++ vchSig

def verifySignature (store : Bool) (vchSig : Bytes) (pubkey : CPubKey)
    (sighash : Uint256) (s : Local) : Bool × Local :=
  let key := signatureKey nonces sighash pubkey vchSig
  let found := s.access P (.sigGet key (!store))
  if found.1 then (true, found.2)
  else if !pubkey.verify P sighash vchSig then (false, found.2)
  else if store then (true, (found.2.access P (.sigSet key)).2)
  else (true, found.2)

/-- `CachingTransactionSignatureChecker`, whose `CheckSig` is the one of its base class. -/
def cachingChecker (store : Bool) (t : TxInput) : Checker Local where
  checkSig vchSig vchPubKey scriptCode sv s :=
    match vchSig.getLast? with
    | none => (false, s)
    | some nHashType =>
      if (CPubKey.set vchPubKey).isValid then
        verifySignature P nonces store vchSig.dropLast (CPubKey.set vchPubKey)
          (t.sighash P scriptCode nHashType.toNat sv) s
      else (false, s)
  checkLockTime := t.checkLockTime
  checkSequence := t.checkSequence

/-! ### Flags -/

def ScriptFlag.bit : ScriptFlag → Nat
  | .p2sh => 0
  | .sigPushOnly => 1
  | .minimalData => 2
  | .nullDummy => 3
  | .discourageUpgradableNops => 4
  | .cleanStack => 5
  | .checkLockTimeVerify => 6
  | .checkSequenceVerify => 7
  | .witness => 8
  | .discourageUpgradableWitnessProgram => 9
  | .minimalIf => 10
  | .nullFail => 11
  | .constScriptCode => 12

def allFlags : List ScriptFlag :=
  [.p2sh, .sigPushOnly, .minimalData, .nullDummy, .discourageUpgradableNops, .cleanStack,
    .checkLockTimeVerify, .checkSequenceVerify, .witness, .discourageUpgradableWitnessProgram,
    .minimalIf, .nullFail, .constScriptCode]

/-- The flags that a `script_verify_flags` has set; it may also have bits that are no flags. -/
def flagsOfInt (flags : UInt64) : ScriptFlags :=
  (allFlags.filter fun f => flags.toNat.testBit (ScriptFlag.bit f)).toFinset

/-- Whether flags that are not mandatory are set (`STANDARD_NOT_MANDATORY_VERIFY_FLAGS`). -/
def beyondMandatory (flags : UInt64) : Bool :=
  decide (∃ f ∈ flagsOfInt flags, f ∈ standardScriptVerifyFlags \ mandatoryScriptVerifyFlags)

/-! ### Checking inputs -/

/-- `CScriptCheck`: a check of an input that is still to be made. -/
structure CScriptCheck where
  tx : CTransaction
  nIn : Fin tx.vin.length
  txOut : CTxOut
  flags : UInt64
  cacheStore : Bool

def CScriptCheck.input (check : CScriptCheck) : TxInput :=
  ⟨check.tx, check.nIn, check.txOut.nValue, check.nIn.isLt⟩

/-- `CScriptCheck::operator()`. -/
def CScriptCheck.run (check : CScriptCheck) (s : Local) : Option (ScriptError × String) × Local :=
  let txin := check.tx.vin.get check.nIn
  let result := (verifyScript P (flagsOfInt check.flags)
    (cachingChecker P nonces check.cacheStore check.input)
    txin.scriptSig check.txOut.scriptPubKey txin.scriptWitness).exec s
  match result.1 with
  | .ok _ => (none, result.2)
  | .error e =>
    (some (e, "input " ++ toString check.nIn.val ++ " of " ++
      toHex (check.tx.getHash P) ++ " (wtxid " ++
      toHex (getWitnessHash P check.tx) ++ "), spending " ++ toHex txin.prevout.hash ++ ":" ++
      toString txin.prevout.n.toNat), result.2)

/-- `PrecomputedTransactionData`, as far as `CheckInputScripts` reads it. -/
structure PrecomputedTransactionData where
  spentOutputs : List CTxOut
  spentOutputsReady : Bool
  deriving DecidableEq

/-- The arguments of a call of `CheckInputScripts`. The checks are deferred if it is given a vector
to put them in. -/
structure Call where
  tx : CTransaction
  inputs : CCoinsView
  flags : UInt64
  cacheSigStore : Bool
  cacheFullScriptStore : Bool
  txdata : PrecomputedTransactionData
  deferred : Bool

inductive InputScriptsResult where
  | notStandard
  | consensus
  deriving DecidableEq

/-- What is hashed for the entry of a transaction in the script execution cache. -/
def scriptKey (tx : CTransaction) (flags : UInt64) : Bytes :=
  nonces.scriptExecution.data ++ nonces.scriptExecution.data ++ (getWitnessHash P tx).data ++
    writeLE 8 flags.toNat

/-- The outputs that some inputs spend, which have to be there. -/
def spentOutputs (inputs : CCoinsView) : List CTxIn →
    Except (Failure InputScriptsResult) (List CTxOut)
  | [] => .ok []
  | txin :: rest => do
    assertThat (haveCoin inputs txin.prevout) "!coin.IsSpent()"
    let outs ← spentOutputs inputs rest
    return (accessCoin inputs txin.prevout).out :: outs

/-- The data with the spent outputs, which are looked up unless an earlier call has done so. -/
def readyData (call : Call) : Except (Failure InputScriptsResult) PrecomputedTransactionData :=
  if call.txdata.spentOutputsReady then .ok call.txdata
  else do
    let outs ← spentOutputs call.inputs call.tx.vin
    return ⟨outs, !outs.isEmpty⟩

def checksOf (call : Call) (outs : List CTxOut) : List CScriptCheck :=
  (List.finRange call.tx.vin.length).map fun i =>
    ⟨call.tx, i, outs.getD i .null, call.flags, call.cacheSigStore⟩

def rejectInput (flags : UInt64) : Option (ScriptError × String) →
    Except (Failure InputScriptsResult) Unit
  | none => .ok ()
  | some (e, debug) =>
    if beyondMandatory flags then
      .error (.invalid .notStandard
        ("mempool-script-verify-flag-failed (" ++ scriptErrorString e ++ ")") debug)
    else
      .error (.invalid .consensus
        ("block-script-verify-flag-failed (" ++ scriptErrorString e ++ ")") debug)

/-- The loop over the checks, if they are not deferred. -/
def runChecks : List CScriptCheck → Comp (Failure InputScriptsResult) Local Unit
  | [] => pure ()
  | check :: rest => do
    let result ← Comp.act (check.run P nonces)
    Comp.ofExcept (rejectInput check.flags result)
    runChecks rest

variable (call : Call)

/-- Remember that all scripts of a transaction have been executed. -/
def storeResult : Comp (Failure InputScriptsResult) Local Unit :=
  if call.cacheFullScriptStore then
    Comp.act fun s => ((), (s.access P (.scriptInsert (scriptKey P nonces call.tx call.flags))).2)
  else pure ()

/-- The checks of a call that are made or deferred, when the spent outputs are known. -/
def makeChecks (txdata : PrecomputedTransactionData) :
    Comp (Failure InputScriptsResult) Local (List CScriptCheck × PrecomputedTransactionData) :=
  if call.deferred then pure (checksOf call txdata.spentOutputs, txdata)
  else do
    runChecks P nonces (checksOf call txdata.spentOutputs)
    storeResult P nonces call
    return ([], txdata)

/-- A call that is not answered by the script execution cache. -/
def checkMissed : Comp (Failure InputScriptsResult) Local
    (List CScriptCheck × PrecomputedTransactionData) := do
  let txdata ← Comp.ofExcept (readyData call)
  Comp.ofExcept (assertThat (txdata.spentOutputs.length == call.tx.vin.length)
    "txdata.m_spent_outputs.size() == tx.vin.size()")
  makeChecks P nonces call txdata

/-- `CheckInputScripts`: the checks that are deferred, and the data with the spent outputs. -/
def checkInputScripts :
    Comp (Failure InputScriptsResult) Local (List CScriptCheck × PrecomputedTransactionData) :=
  if call.tx.isCoinBase then pure ([], call.txdata)
  else do
    let hit ← Comp.act (Local.access P
      (.scriptContains (scriptKey P nonces call.tx call.flags) (!call.cacheFullScriptStore)))
    if hit then pure ([], call.txdata) else checkMissed P nonces call

/-! ### Interleavings -/

/-- A thread: a call by its position, or one of the checks that it has deferred. -/
abbrev ThreadId := Nat × Option Nat

/-- The accesses of a thread in a sequence of accesses. -/
def own (id : ThreadId) (trace : List (ThreadId × Access)) : List Access :=
  (trace.filter fun p => p.1 = id).map Prod.snd

/-- The accesses of the others before each access of a thread, and after the last one. -/
def othersOf (id : ThreadId) : List (ThreadId × Access) → List (List Access)
  | [] => [[]]
  | (j, a) :: rest =>
    if j = id then [] :: othersOf id rest
    else (a :: (othersOf id rest).headD []) :: (othersOf id rest).tail

variable (start : ValidationCache) (trace : List (ThreadId × Access))

/-- Where a thread starts that finds the others doing what they do in a sequence of accesses. -/
def startLocal (id : ThreadId) : Local :=
  ⟨start, othersOf id trace, []⟩

def runCall (k : Nat) (call : Call) :
    Except (Failure InputScriptsResult) (List CScriptCheck × PrecomputedTransactionData) × Local :=
  (checkInputScripts P nonces call).exec (startLocal start trace (k, none))

/-- A run of a check that a call has deferred, with what the others do. -/
def runDeferred (k j : Nat)
    (check : CScriptCheck) : Option (ScriptError × String) × Local :=
  check.run P nonces (startLocal start trace (k, some j))

def deferredCheck (k j : Nat) (call : Call) : Option CScriptCheck :=
  match (runCall P nonces start trace k call).1 with
  | .ok (checks, _) => checks[j]?
  | .error _ => none

/-- The accesses that a thread makes until it ends, if the others do what they do in the sequence.
-/
def accessesOf (calls : List Call) (start : ValidationCache) (trace : List (ThreadId × Access)) :
    ThreadId → List Access
  | (k, none) =>
    match calls[k]? with
    | some call => (runCall P nonces start trace k call).2.log
    | none => []
  | (k, some j) =>
    match calls[k]?.bind (deferredCheck P nonces start trace k j) with
    | some check => (runDeferred P nonces start trace k j check).2.log
    | none => []

/-- An interleaving of calls: a sequence of accesses in which every thread makes its own accesses,
as far as it has come. -/
structure Execution (calls : List Call) (start : ValidationCache) where
  trace : List (ThreadId × Access)
  consistent : ∀ id, own id trace <+: accessesOf P nonces calls start trace id

end Tessera.Validation
