import Moonglass.Containers

/-
  Cryptography as parameters. `Crypto` collects the functions the source takes from hashing, BLS
  and KZG libraries: SHA-256, the SSZ tree root of each container that is hashed, signature
  verification and the cell-proof batch check. The only law is the one of SSZ containers that the
  state transition relies on: a block and its header (with the body replaced by its root) have the
  same tree root. Verification is deterministic by being a function.
-/

namespace Moonglass

open Lib

/-- Hashing, signatures and KZG proofs. -/
class Crypto [Preset] where
  sha256 : List U8 → Bytes32
  beaconStateRoot : BeaconState → Root
  beaconBlockRoot : BeaconBlock → Root
  beaconBlockHeaderRoot : BeaconBlockHeader → Root
  beaconBlockBodyRoot : BeaconBlockBody → Root
  forkDataRoot : ForkData → Root
  signingDataRoot : SigningData → Root
  epochRoot : Epoch → Root
  attestationDataRoot : AttestationData → Root
  payloadAttestationDataRoot : PayloadAttestationData → Root
  voluntaryExitRoot : VoluntaryExit → Root
  blsToExecutionChangeRoot : BLSToExecutionChange → Root
  depositMessageRoot : DepositMessage → Root
  executionPayloadBidRoot : ExecutionPayloadBid → Root
  executionPayloadEnvelopeRoot : ExecutionPayloadEnvelope → Root
  executionRequestsRoot : ExecutionRequests → Root
  rootsRoot : Vector Root slotsPerHistoricalRoot → Root
  /-- One signature, all parsing included. -/
  blsVerify : BLSPubkey → Root → BLSSignature → Bool
  /-- One signature of several signers, at least one, all parsing included. -/
  blsFastAggregateVerify : List BLSPubkey → Root → BLSSignature → Bool
  /-- The sum of at least one public key, if they all parse. -/
  blsAggregatePubkeys : List BLSPubkey → Option BLSPubkey
  /-- The trusted setup as compiled in: it parses or it does not. -/
  kzgSetup : Except SetupFileError Unit
  verifyCellKzgProofBatch :
    List KZGCommitment → List CellIndex → List Cell → List KZGProof → Except KzgError Bool
  beaconBlockRoot_eq_header : ∀ b : BeaconBlock,
    beaconBlockRoot b = beaconBlockHeaderRoot (b.header (beaconBlockBodyRoot b.body) b.stateRoot)

variable [Preset] [Crypto]

def BeaconState.treeRoot (s : BeaconState) : Root := Crypto.beaconStateRoot s
def BeaconBlock.treeRoot (b : BeaconBlock) : Root := Crypto.beaconBlockRoot b
def BeaconBlockHeader.treeRoot (h : BeaconBlockHeader) : Root := Crypto.beaconBlockHeaderRoot h
def BeaconBlockBody.treeRoot (b : BeaconBlockBody) : Root := Crypto.beaconBlockBodyRoot b
def ExecutionRequests.treeRoot (r : ExecutionRequests) : Root := Crypto.executionRequestsRoot r

theorem BeaconBlock.treeRoot_eq_header (b : BeaconBlock) :
    b.treeRoot = (b.header b.body.treeRoot b.stateRoot).treeRoot :=
  Crypto.beaconBlockRoot_eq_header b

/-! ## Signatures -/

/-- Check one signature, failing with `onFail`. -/
def verifySignature (pubkey : BLSPubkey) (signingRoot : Root) (signature : BLSSignature)
    (onFail : SignatureError) : Except TransitionError Unit :=
  ensure (Crypto.blsVerify pubkey signingRoot signature) (.signature onFail)

/-- Check an aggregate signature. No signers at all is accepted with the infinity signature. -/
def fastAggregateVerify (pubkeys : List BLSPubkey) (signingRoot : Root)
    (signature : BLSSignature) (onFail : SignatureError) : Except TransitionError Unit :=
  if pubkeys.isEmpty then
    ensure (isG2PointAtInfinity signature) (.signature .syncInfinitySignatureRequired)
  else
    ensure (Crypto.blsFastAggregateVerify pubkeys signingRoot signature) (.signature onFail)

/-- The aggregate of at least one public key. -/
def aggregatePubkeys (pubkeys : List BLSPubkey) : Except TransitionError BLSPubkey :=
  if pubkeys.isEmpty then .error (.signature .emptyAggregatePubkeySet)
  else okOr (Crypto.blsAggregatePubkeys pubkeys) (.signature .aggregatePubkey)

/-! ## Domains and signing roots -/

def computeForkDataRoot (version : Version) (genesisValidatorsRoot : Root) : Root :=
  Crypto.forkDataRoot ⟨version, genesisValidatorsRoot⟩

/-- The four domain-type bytes followed by the first 28 bytes of the fork-data root. -/
def computeDomain (domainType : DomainType) (version : Version) (genesisValidatorsRoot : Root) :
    Domain :=
  (domainType ++ (computeForkDataRoot version genesisValidatorsRoot).bytes.take 28 :)

def computeSigningRoot (objectRoot : Root) (domain : Domain) : Root :=
  Crypto.signingDataRoot ⟨objectRoot, domain⟩

def BeaconState.forkVersionAt (s : BeaconState) (epoch : Epoch) : Version :=
  if epoch < s.fork.epoch then s.fork.previousVersion else s.fork.currentVersion

def BeaconState.domainFor (s : BeaconState) (domainType : DomainType) (epoch : Epoch) : Domain :=
  computeDomain domainType (s.forkVersionAt epoch) s.genesisValidatorsRoot

def BeaconState.signingRootFor (s : BeaconState) (objectRoot : Root) (domainType : DomainType)
    (epoch : Epoch) : Root :=
  computeSigningRoot objectRoot (s.domainFor domainType epoch)

def domainBeaconProposer : DomainType := #v[0x00, 0, 0, 0]
def domainBeaconAttester : DomainType := #v[0x01, 0, 0, 0]
def domainRandao : DomainType := #v[0x02, 0, 0, 0]
def domainDeposit : DomainType := #v[0x03, 0, 0, 0]
def domainVoluntaryExit : DomainType := #v[0x04, 0, 0, 0]
def domainSyncCommittee : DomainType := #v[0x07, 0, 0, 0]
def domainBlsToExecutionChange : DomainType := #v[0x0A, 0, 0, 0]
def domainBeaconBuilder : DomainType := #v[0x0B, 0, 0, 0]
def domainPtcAttester : DomainType := #v[0x0C, 0, 0, 0]
def domainBuilderDeposit : DomainType := #v[0x0E, 0, 0, 0]

def BeaconState.genesisForkVersion : Version := pick #v[0, 0, 0, 0] #v[0, 0, 0, 1]
def BeaconState.capellaForkVersion : Version := pick #v[3, 0, 0, 0] #v[3, 0, 0, 1]

end Moonglass
