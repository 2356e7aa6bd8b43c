import Tessera.Validation.Block

/-!
# Downloading headers twice

`headerssync.cpp`: the headers of a peer are downloaded once to see that they have enough work, with
a bit stored for some of them, and then again. What comes the second time is released when enough
bits have been seen to match, or when the work has been reached.

The number of commitments that may be stored is a parameter (it depends on the time), and so are the
bit of a header (a salted hash) and the offset of the heights that have one (a random number).
-/

namespace Tessera.Net

open Validation

/-- `CompressedHeader`: a header without the hash of the block before. -/
structure CompressedHeader where
  nVersion : Int
  hashMerkleRoot : Uint256
  nTime : UInt32
  nBits : UInt32
  nNonce : UInt32
  deriving DecidableEq

namespace CompressedHeader

def ofHeader (header : CBlockHeader) : CompressedHeader :=
  ⟨header.nVersion, header.hashMerkleRoot, header.nTime, header.nBits, header.nNonce⟩

def getFullHeader (hashPrevBlock : Uint256) (header : CompressedHeader) : CBlockHeader :=
  ⟨header.nVersion, hashPrevBlock, header.hashMerkleRoot, header.nTime, header.nBits, header.nNonce⟩

theorem getFullHeader_ofHeader (header : CBlockHeader) :
    getFullHeader header.hashPrevBlock (ofHeader header) = header := rfl

end CompressedHeader

/-- `HeadersSyncState::State`. -/
inductive DownloadState where
  | presync
  | redownload
  | final
  deriving DecidableEq

/-- The members of a `HeadersSyncState` that never change. -/
structure SyncParams where
  pow : PowParams
  commitmentPeriod : Nat
  redownloadBufferSize : Nat
  commitOffset : Nat
  chainStart : CBlockHeader
  chainStartHeight : Int
  chainStartWork : Nat
  minimumRequiredWork : Nat
  maxCommitments : Nat
  /-- The lowest bit of `m_hasher`. -/
  commitment : Uint256 → Bool
  period_pos : 0 < commitmentPeriod
  offset_lt : commitOffset < commitmentPeriod

/-- `HeadersSyncState`, the members that change. -/
structure HeadersSyncState where
  downloadState : DownloadState
  currentChainWork : Nat
  headerCommitments : List Bool
  lastHeaderReceived : CBlockHeader
  currentHeight : Int
  redownloadedHeaders : List CompressedHeader
  redownloadBufferLastHeight : Int
  redownloadBufferLastHash : Uint256
  redownloadBufferFirstPrevHash : Uint256
  redownloadChainWork : Nat
  processAllRemainingHeaders : Bool
  deriving DecidableEq

structure ProcessingResult where
  powValidatedHeaders : List CBlockHeader
  success : Bool
  requestMore : Bool
  deriving DecidableEq

/-- An `int64_t` as an `int`. -/
def toInt32 (n : Int) : Int := n.bmod (2 ^ 32)

/-- `CBlockHeader::SetNull`. -/
def nullHeader : CBlockHeader := ⟨0, .null 32, .null 32, 0, 0, 0⟩

section

variable (P : Primitives) (params : SyncParams)

/-- `m_chain_start.GetBlockHash()`. -/
def SyncParams.startHash : Uint256 := params.chainStart.getHash P

/-- Whether headers at a height have a commitment. The height is converted to a `size_t`. -/
def SyncParams.atCommitment (height : Int) : Bool :=
  (height % 2 ^ 64).toNat % params.commitmentPeriod == params.commitOffset

namespace HeadersSyncState

/-- The constructor. -/
def start : HeadersSyncState where
  downloadState := .presync
  currentChainWork := params.chainStartWork
  headerCommitments := []
  lastHeaderReceived := params.chainStart
  currentHeight := params.chainStartHeight
  redownloadedHeaders := []
  redownloadBufferLastHeight := 0
  redownloadBufferLastHash := .null 32
  redownloadBufferFirstPrevHash := .null 32
  redownloadChainWork := 0
  processAllRemainingHeaders := false

def finalize (s : HeadersSyncState) : HeadersSyncState :=
  { s with
    headerCommitments := []
    lastHeaderReceived := nullHeader
    redownloadedHeaders := []
    redownloadBufferLastHash := .null 32
    redownloadBufferFirstPrevHash := .null 32
    processAllRemainingHeaders := false
    currentHeight := 0
    downloadState := .final }

/-! ### The first phase -/

/-- The end of `ValidateAndProcessSingleHeader`, where a header is taken. -/
def takeHeader (current : CBlockHeader) (nextHeight : Int) (s : HeadersSyncState) :
    HeadersSyncState :=
  { s with
    currentChainWork := (s.currentChainWork + getBitsProof current.nBits) % 2 ^ 256
    lastHeaderReceived := current
    currentHeight := nextHeight }

def pushCommitment (header : CBlockHeader) (s : HeadersSyncState) : HeadersSyncState :=
  { s with headerCommitments := s.headerCommitments ++ [params.commitment (header.getHash P)] }

/-- `HeadersSyncState::ValidateAndProcessSingleHeader`. The next height is an `int`. -/
def validateAndProcessSingleHeader (current : CBlockHeader) (s : HeadersSyncState) :
    Bool × HeadersSyncState :=
  let nextHeight := toInt32 (s.currentHeight + 1)
  if !permittedDifficultyTransition params.pow nextHeight s.lastHeaderReceived.nBits
    current.nBits then (false, s)
  else if params.atCommitment nextHeight then
    let s := s.pushCommitment P params current
    if params.maxCommitments < s.headerCommitments.length then (false, s)
    else (true, s.takeHeader current nextHeight)
  else (true, s.takeHeader current nextHeight)

/-- The loop of `ValidateAndStoreHeadersCommitments`. -/
def processHeaders : List CBlockHeader → HeadersSyncState → Bool × HeadersSyncState
  | [], s => (true, s)
  | header :: headers, s =>
    match s.validateAndProcessSingleHeader P params header with
    | (true, s) => processHeaders headers s
    | (false, s) => (false, s)

/-- Start the second phase if there is enough work. -/
def maybeRedownload (s : HeadersSyncState) : HeadersSyncState :=
  if params.minimumRequiredWork ≤ s.currentChainWork then
    { s with
      redownloadedHeaders := []
      redownloadBufferLastHeight := params.chainStartHeight
      redownloadBufferFirstPrevHash := params.startHash P
      redownloadBufferLastHash := params.startHash P
      redownloadChainWork := params.chainStartWork
      downloadState := .redownload }
  else s

/-- `HeadersSyncState::ValidateAndStoreHeadersCommitments` on headers of which there is at least
one. -/
def validateAndStoreHeadersCommitments (header : CBlockHeader) (headers : List CBlockHeader)
    (s : HeadersSyncState) : Bool × HeadersSyncState :=
  if header.hashPrevBlock != s.lastHeaderReceived.getHash P then (false, s)
  else
    match s.processHeaders P params (header :: headers) with
    | (true, s) => (true, s.maybeRedownload P params)
    | (false, s) => (false, s)

/-! ### The second phase -/

/-- `previous_nBits`. -/
def previousBits (s : HeadersSyncState) : UInt32 :=
  match s.redownloadedHeaders.getLast? with
  | some header => header.nBits
  | none => params.chainStart.nBits

variable (header : CBlockHeader)

def trackWork (s : HeadersSyncState) : HeadersSyncState :=
  let work := (s.redownloadChainWork + getBitsProof header.nBits) % 2 ^ 256
  { s with
    redownloadChainWork := work
    processAllRemainingHeaders := s.processAllRemainingHeaders ||
      decide (params.minimumRequiredWork ≤ work) }

def storeHeader (nextHeight : Int) (s : HeadersSyncState) : HeadersSyncState :=
  { s with
    redownloadedHeaders := s.redownloadedHeaders ++ [.ofHeader header]
    redownloadBufferLastHeight := nextHeight
    redownloadBufferLastHash := header.getHash P }

variable (s : HeadersSyncState)

/-- Compare the commitment of a header with the next one that is stored. -/
def checkCommitment : Bool × HeadersSyncState :=
  match s.headerCommitments with
  | [] => (false, s)
  | expected :: rest =>
    (params.commitment (header.getHash P) == expected, { s with headerCommitments := rest })

def validateAndStoreRedownloadedHeader : Bool × HeadersSyncState :=
  let nextHeight := s.redownloadBufferLastHeight + 1
  if header.hashPrevBlock != s.redownloadBufferLastHash then (false, s)
  else if !permittedDifficultyTransition params.pow nextHeight (s.previousBits params)
    header.nBits then (false, s)
  else
    let s := s.trackWork params header
    if !s.processAllRemainingHeaders && params.atCommitment nextHeight then
      match s.checkCommitment P params header with
      | (true, s) => (true, s.storeHeader P header nextHeight)
      | (false, s) => (false, s)
    else (true, s.storeHeader P header nextHeight)

/-- The loop over the headers of a message in the second phase. -/
def redownloadHeaders : List CBlockHeader → HeadersSyncState → Bool × HeadersSyncState
  | [], s => (true, s)
  | header :: headers, s =>
    match s.validateAndStoreRedownloadedHeader P params header with
    | (true, s) => redownloadHeaders headers s
    | (false, s) => (false, s)

/-- The loop of `PopHeadersReadyForAcceptance` on the buffer: what is released, what stays, and the
hash before the first header that stays. -/
def popHeaders (all : Bool) (hashPrev : Uint256) :
    List CompressedHeader → List CBlockHeader × List CompressedHeader × Uint256
  | [] => ([], [], hashPrev)
  | header :: rest =>
    if decide (params.redownloadBufferSize < (header :: rest).length) || all then
      let full := header.getFullHeader hashPrev
      let popped := popHeaders all (full.getHash P) rest
      (full :: popped.1, popped.2)
    else ([], header :: rest, hashPrev)

def popHeadersReadyForAcceptance : List CBlockHeader × HeadersSyncState :=
  let popped := popHeaders P params s.processAllRemainingHeaders s.redownloadBufferFirstPrevHash
    s.redownloadedHeaders
  (popped.1, { s with
    redownloadedHeaders := popped.2.1, redownloadBufferFirstPrevHash := popped.2.2 })

/-! ### Messages -/

/-- What `ProcessNextHeaders` does with a message in the first phase. -/
def processPresync (header : CBlockHeader) (headers : List CBlockHeader) (fullHeadersMessage : Bool)
    (s : HeadersSyncState) : ProcessingResult × HeadersSyncState :=
  match s.validateAndStoreHeadersCommitments P params header headers with
  | (true, s) => (⟨[], true, fullHeadersMessage || s.downloadState == .redownload⟩, s)
  | (false, s) => (⟨[], false, false⟩, s)

/-- What `ProcessNextHeaders` does with a message in the second phase. -/
def processRedownload (headers : List CBlockHeader) (fullHeadersMessage : Bool)
    (s : HeadersSyncState) : ProcessingResult × HeadersSyncState :=
  match s.redownloadHeaders P params headers with
  | (true, s) =>
    let (ready, s) := s.popHeadersReadyForAcceptance P params
    (⟨ready, true, !(s.redownloadedHeaders.isEmpty && s.processAllRemainingHeaders) &&
      fullHeadersMessage⟩, s)
  | (false, s) => (⟨[], false, false⟩, s)

/-- The end of `ProcessNextHeaders`. -/
def finish (r : ProcessingResult × HeadersSyncState) : ProcessingResult × HeadersSyncState :=
  if !(r.1.success && r.1.requestMore) then (r.1, r.2.finalize) else r

def processNextHeaders (receivedHeaders : List CBlockHeader) (fullHeadersMessage : Bool)
    (s : HeadersSyncState) : ProcessingResult × HeadersSyncState :=
  match receivedHeaders, s.downloadState with
  | [], _ => (⟨[], false, false⟩, s)
  | _ :: _, .final => (⟨[], false, false⟩, s)
  | header :: headers, .presync =>
    finish (s.processPresync P params header headers fullHeadersMessage)
  | header :: headers, .redownload =>
    finish (s.processRedownload P params (header :: headers) fullHeadersMessage)

end HeadersSyncState

/-! ### Sessions -/

/-- A call of `ProcessNextHeaders`, with the states before and after it. -/
structure Exchange where
  before : HeadersSyncState
  headers : List CBlockHeader
  result : ProcessingResult
  after : HeadersSyncState

/-- A state with the log of the calls that have led to it. -/
structure Session where
  sync : HeadersSyncState
  log : List Exchange

/-- A session before the first call. -/
def Session.start : Session := ⟨.start params, []⟩

/-- A session after one more message, which may be full. -/
def Session.step (s : Session) (message : List CBlockHeader × Bool) : Session :=
  let r := s.sync.processNextHeaders P params message.1 message.2
  ⟨r.2, s.log ++ [⟨s.sync, message.1, r.1, r.2⟩]⟩

end

variable (log : List Exchange)

/-- The concatenation of all `pow_validated_headers`. -/
def released : List CBlockHeader := log.flatMap fun e => e.result.powValidatedHeaders

/-- The headers that calls have taken in the second phase. -/
def redownloaded : List CBlockHeader :=
  (log.filter fun e => e.before.downloadState == .redownload && e.result.success).flatMap
    Exchange.headers

/-- The headers that calls have taken in the first phase. -/
def presynced : List CBlockHeader :=
  (log.filter fun e => e.before.downloadState == .presync && e.result.success).flatMap
    Exchange.headers

/-- The commitments that are stored when the first phase ends. -/
def storedCommitments : List Bool :=
  match (log.filter fun e => e.before.downloadState == .presync).getLast? with
  | some e => e.after.headerCommitments
  | none => []

end Tessera.Net
