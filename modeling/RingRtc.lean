import RingRtc.Resolver.Cache
import RingRtc.Resolver.MemberResolver
import RingRtc.Resolver.Runs
import RingRtc.Resolver.Ledger
import RingRtc.Resolver.Interleaving
import RingRtc.Resolver.Invariants
import RingRtc.Resolver.Sequential
import RingRtc.Resolver.Linearizability
import RingRtc.Devices.AudioDevices
import RingRtc.Factory.Config
