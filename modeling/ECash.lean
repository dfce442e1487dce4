import ECash.Coins.Refinement
import ECash.Validation.ParkedSafety
import ECash.Avalanche.ProofExclusion
import ECash.Index.Rewind
import ECash.Coins.Recovery
import ECash.Mempool.ReorgOrder
import ECash.Radix.Refinement
import ECash.Lib.SignatureAgreement
import ECash.Cashtab.NftFan
import ECash.Index.HistoryReorg
import ECash.Index.UtxoReorg
import ECash.Tokens.Ledger
import ECash.Tokens.LokadId
import ECash.Avalanche.VoteRecord
import ECash.Address.Codec
import ECash.Avalanche.Delegation
import ECash.Relay.CompactBlock
import ECash.Tokens.SendBurn
import ECash.Tokens.Atomicity
import ECash.Address.ShortPayload
import ECash.Agora.RoundTrip
import ECash.Avalanche.Preference
import ECash.Coinselect.Select
import ECash.Relay.Message
import ECash.Merkle.RootUniqueness
import ECash.Interpreter.IntMath
import ECash.Serialize.VarInt
import ECash.Merkle.TxOutProof
