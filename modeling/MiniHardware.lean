import MiniHardware.Storage.GcSafety
import MiniHardware.Security.AesInverse
import MiniHardware.Security.Gcm
import MiniHardware.Security.AesModes
import MiniHardware.Security.GcmField
import MiniHardware.Security.Sha256Sigma
import MiniHardware.Arch.CoherentData
import MiniHardware.Arch.PipelineSafety
import MiniHardware.Cpu.PipelineSafety
import MiniHardware.Cpu.SuperscalarRun
import MiniHardware.Cpu.OooSafety
import MiniHardware.Digital.BoolExpr
import MiniHardware.Digital.GateSteady
import MiniHardware.Accel.Winograd
import MiniHardware.Storage.RsSyndromes
import MiniHardware.Storage.LdpcEncode
import MiniHardware.Gpu.ListSchedule
import MiniHardware.Security.Masking
import MiniHardware.Cpu.MemCtrlOrder
import MiniHardware.Security.SecureBoot
import MiniHardware.Cpu.Mmu
import MiniHardware.Arch.VirtualMemoryFifo
import MiniHardware.Arch.CacheLru
import MiniHardware.Arch.CacheDirty
import MiniHardware.Network.Mac
import MiniHardware.Network.Scrambler
import MiniHardware.Network.TokenBucket
import MiniHardware.Accel.SparseMma
import MiniHardware.Accel.TensorCore
import MiniHardware.Accel.KvCache
import MiniHardware.Accel.FlashAttention
import MiniHardware.Storage.SsdController
import MiniHardware.Storage.SlcBuffer
import MiniHardware.Arch.Dram
import MiniHardware.Accel.Bcsr
import MiniHardware.Accel.Ell
import MiniHardware.Accel.Systolic
import MiniHardware.Accel.TpuPipeline
import MiniHardware.Accel.TpuAlloc
import MiniHardware.Network.Rdma
import MiniHardware.Network.Nic
import MiniHardware.Network.Qos
import MiniHardware.Network.Serdes8b10b
import MiniHardware.Network.SwitchFabric
import MiniHardware.Digital.BusArbiter
import MiniHardware.Arch.PipelineEncode
import MiniHardware.Cpu.IsaDecode
import MiniHardware.Security.ChaCha
import MiniHardware.Gpu.TensorGemm
import MiniHardware.Gpu.GigaThread
import MiniHardware.Cpu.MesiBus
import MiniHardware.Digital.FsmMinimize
import MiniHardware.Digital.FsmKmp
import MiniHardware.Digital.CacheReads
import MiniHardware.Gpu.ShaderCore
import MiniHardware.Cpu.TlbSharing
import MiniHardware.Arch.DramRefresh
import MiniHardware.Security.MemoryCrypto
import MiniHardware.Gpu.MemoryGpu
import MiniHardware.Cpu.CacheHits
import MiniHardware.Cpu.CacheHierarchy
import MiniHardware.Arch.Directory
import MiniHardware.Storage.FreePagesRuns
import MiniHardware.Network.Serdes64b66b
import MiniHardware.Storage.FtlFailure
import MiniHardware.Bench.NvmeQueue
import MiniHardware.Security.ReplayCounters
import MiniHardware.Security.IntegrityTree
import MiniHardware.Security.TeeLifecycle
import MiniHardware.Security.TeeSeal
import MiniHardware.Security.Puf
import MiniHardware.Security.RootOfTrust
import MiniHardware.Bench.SimCache
import MiniHardware.Bench.StackDistance
import MiniHardware.Network.Offload
import MiniHardware.Digital.Espresso
import MiniHardware.Digital.Qmc
import MiniHardware.Digital.Shannon
import MiniHardware.Digital.Adders
import MiniHardware.Digital.GrayCounter
import MiniHardware.Digital.Timing
import MiniHardware.Digital.GateDepth
import MiniHardware.Digital.FsmReach
import MiniHardware.Arch.Interconnect
import MiniHardware.Bench.Stats
import MiniHardware.Bench.Anova
import MiniHardware.Bench.PointerChase
import MiniHardware.Security.Hkdf
import MiniHardware.Arch.Tlb
import MiniHardware.Lib.TreeReduce
import MiniHardware.Gpu.Simd
import MiniHardware.Gpu.SimdReduce
import MiniHardware.Storage.GcVictim
import MiniHardware.Storage.LdpcRegular
import MiniHardware.Storage.AllocateMap
import MiniHardware.Lib.Mistakes
import MiniHardware.Arch.Predictor
import MiniHardware.Arch.Perceptron
import MiniHardware.Bench.IoScheduler
import MiniHardware.Gpu.WarpScheduler
import MiniHardware.Accel.Convolution
import MiniHardware.Storage.Nvme
import MiniHardware.Arch.Prefetch
import MiniHardware.Security.Rsa
