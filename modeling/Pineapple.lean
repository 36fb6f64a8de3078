import Pineapple.Boot.Proofs.ConfineProofs
import Pineapple.Boot.Proofs.DemoProofs
import Pineapple.Boot.Proofs.GarbageProofs
import Pineapple.Boot.Proofs.HandoverProofs
import Pineapple.Boot.Proofs.LoadProofs
import Pineapple.Boot.Proofs.OverflowProofs
import Pineapple.Boot.Proofs.RamProofs
import Pineapple.Boot.Proofs.ReceiveProofs
import Pineapple.Boot.Proofs.SelfTestProofs
import Pineapple.Clocked.Trace
import Pineapple.Machine.Proofs.EnvProofs
import Pineapple.Machine.Proofs.ExecProofs
import Pineapple.Machine.Proofs.FlashProofs
import Pineapple.Machine.Proofs.FlowProofs
import Pineapple.Machine.Proofs.GpioProofs
import Pineapple.Paged.Machine
import Pineapple.Paged.Proofs.HandoffProofs
import Pineapple.Paged.Proofs.ImageProofs
import Pineapple.Paged.Proofs.SwitchProofs
import Pineapple.Paged.Proofs.RunProofs
import Pineapple.Paged.Proofs.CallerProofs
import Pineapple.Paged.Proofs.ScriptProofs
import Pineapple.Rtl.Proofs.BenchProofs
import Pineapple.Rtl.Proofs.IsolationProofs
import Pineapple.Rtl.Top
import Pineapple.Spi.Proofs.EngineProofs
import Pineapple.Spi.Proofs.LinkProofs
import Pineapple.Spi.Proofs.Mode0Proofs
import Pineapple.St7789.Program
import Pineapple.St7789.Proofs.ConstProofs
import Pineapple.St7789.Proofs.PagesProofs
import Pineapple.St7789.Proofs.DelayProofs
import Pineapple.Paged.Proofs.ChainProofs
import Pineapple.Clocked.Transducer
import Pineapple.Rtl.Agreement
import Pineapple.Ps2.Contract
import Pineapple.Ps2.Proofs.KeyboardProofs
import Pineapple.St7789.Proofs.PanelProofs
import Pineapple.St7789.Proofs.StreamProofs
import Pineapple.Tools.Asm
import Pineapple.Tools.Paged
import Pineapple.Tools.Proofs.AgreeProofs
import Pineapple.Tools.Proofs.AsmProofs
import Pineapple.Tools.Proofs.EncodeProofs
import Pineapple.Tools.Proofs.PagedProofs
import Pineapple.Ps2.Proofs.AsciiProofs
import Pineapple.Ps2.Proofs.ReaderProofs
import Pineapple.Loaded.Machine
import Pineapple.Loaded.Proofs.RunProofs
import Pineapple.Paged.Proofs.ResetProofs
import Pineapple.Paged.Pagetest
import Pineapple.Paged.Proofs.PagetestProofs
import Pineapple.Loaded.Proofs.FlatProofs
import Pineapple.Boot.Proofs.ListenProofs
import Pineapple.Boot.Proofs.FollowProofs
