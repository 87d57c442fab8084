import Neutrino.Backend.WitnessComplete
import Neutrino.Consensus.Committee
import Neutrino.Consensus.NativeFinality
import Neutrino.Engine.Canonical
import Neutrino.ForkChoice.Head
import Neutrino.Proving.Openings
import Neutrino.Proving.Ranges
import Neutrino.Runtime.Admission
import Neutrino.Runtime.GhostWeight
import Neutrino.Runtime.Withdrawals
import Neutrino.Signing.Accountability
import Neutrino.Signing.Agreement
import Neutrino.Signing.Retention
import Neutrino.Sync.Recovery
import Neutrino.Trie.PackedPaths
import Neutrino.Trie.Pruning
