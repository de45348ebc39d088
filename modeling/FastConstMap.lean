import FastConstMap.Lib.Loops
import FastConstMap.Lib.Words
import FastConstMap.Lib.Peeling
import FastConstMap.Lib.LittleEndian
import FastConstMap.Lib.Slices
import FastConstMap.Lib.Blocks
import FastConstMap.Lib.Vectors
import FastConstMap.Lib.Runs
import FastConstMap.Lib.Places
import FastConstMap.Lib.Heaps
import FastConstMap.Hash
import FastConstMap.Params
import FastConstMap.Peel
import FastConstMap.Attempt
import FastConstMap.Maps
import FastConstMap.Construct
import FastConstMap.Lookup
import FastConstMap.Serial
import FastConstMap.Python
import FastConstMap.Batch
import FastConstMap.XxHash
import FastConstMap.Xxh64
import FastConstMap.Xxh3
import FastConstMap.Host
import FastConstMap.Install
import FastConstMap.Persist
import FastConstMap.Session
import FastConstMap.Memory
import FastConstMap.References
import FastConstMap.Proofs.HashProofs
import FastConstMap.Proofs.KeyProofs
import FastConstMap.Proofs.ParamsProofs
import FastConstMap.Proofs.MapsProofs
import FastConstMap.Proofs.PlaceProofs
import FastConstMap.Proofs.CountProofs
import FastConstMap.Proofs.NeighborProofs
import FastConstMap.Proofs.WorkProofs
import FastConstMap.Proofs.DrainProofs
import FastConstMap.Proofs.AttemptProofs
import FastConstMap.Proofs.PeelProofs
import FastConstMap.Proofs.ConstructProofs
import FastConstMap.Proofs.BuiltMapProofs
import FastConstMap.Proofs.OrderProofs
import FastConstMap.Proofs.RetryProofs
import FastConstMap.Proofs.SeedProofs
import FastConstMap.Proofs.BoundsProofs
import FastConstMap.Proofs.SegmentProofs
import FastConstMap.Proofs.PackedProofs
import FastConstMap.Proofs.FingerprintProofs
import FastConstMap.Proofs.LookupProofs
import FastConstMap.Proofs.ValuesProofs
import FastConstMap.Proofs.AcceptProofs
import FastConstMap.Proofs.DuplicateProofs
import FastConstMap.Proofs.SizeProofs
import FastConstMap.Proofs.ErrorProofs
import FastConstMap.Proofs.WordsProofs
import FastConstMap.Proofs.SerialProofs
import FastConstMap.Proofs.CodecProofs
import FastConstMap.Proofs.ReadProofs
import FastConstMap.Proofs.RangeProofs
import FastConstMap.Proofs.CoverProofs
import FastConstMap.Proofs.WrapProofs
import FastConstMap.Proofs.RoundTripProofs
import FastConstMap.Proofs.CorruptionProofs
import FastConstMap.Proofs.BurstProofs
import FastConstMap.Proofs.PythonProofs
import FastConstMap.Proofs.BatchProofs
import FastConstMap.Proofs.ServeProofs
import FastConstMap.Proofs.OwnerProofs
import FastConstMap.Proofs.InstallProofs
import FastConstMap.Proofs.OnceProofs
import FastConstMap.Proofs.DictProofs
import FastConstMap.Proofs.XxHashProofs
import FastConstMap.Proofs.Xxh64Proofs
import FastConstMap.Proofs.Xxh3Proofs
import FastConstMap.Proofs.LongKeyProofs
import FastConstMap.Proofs.CollisionProofs
import FastConstMap.Proofs.HostProofs
import FastConstMap.Proofs.MemberProofs
import FastConstMap.Proofs.PersistProofs
import FastConstMap.Proofs.SessionProofs
import FastConstMap.Proofs.MemoryProofs
import FastConstMap.Proofs.ReferenceProofs
import FastConstMap.Proofs.ProcessProofs
